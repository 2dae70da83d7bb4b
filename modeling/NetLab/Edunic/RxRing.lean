import Mathlib
import NetLab.Foundation.Machine
import NetLab.Edunic.TxRing

/-! The receive half of the edunic driver and of its emulated device: nic_rx.c. A frame can come
in between any two rounds of the driver's loops, so each round is a step; what the allocator and
the DMA layer answer is part of its label. The log records what is done to buffers and mappings
and what becomes of frames. -/
namespace NetLab.Edunic

/-- EDUNIC_RX_BUF_SIZE. -/
def rxBufSize : ℕ := 2048

/-- EDUNIC_RXD_STAT_DD. -/
def rxdStatDD : UInt8 := 1

/-- EDUNIC_RXD_STAT_DD | EDUNIC_RXD_STAT_EOP | EDUNIC_RXD_STAT_CSUM_VALID. -/
def rxdDelivered : UInt8 := 1 ||| 2 ||| 4

/-- EDUNIC_RXD_STAT_CSUM_VALID. -/
def rxdStatCsumValid : UInt8 := 4

/-- EDUNIC_RXD_ERR_RXE. -/
def rxdErrRxe : UInt8 := 1

/-- struct edunic_rx_desc, without the placeholders the model of the device ignores. -/
structure RxDesc where
  bufferAddr : UInt64
  length : UInt16
  status : UInt8
  errors : UInt8
deriving DecidableEq, Repr

def RxDesc.done (desc : RxDesc) : Bool := desc.status &&& rxdStatDD != 0
def RxDesc.csumValid (desc : RxDesc) : Bool := desc.status &&& rxdStatCsumValid != 0
def RxDesc.faulty (desc : RxDesc) : Bool := desc.errors &&& rxdErrRxe != 0

/-- struct edunic_rx_buf. -/
structure RxBuf where
  skb : Option SkBuff
  dma : UInt64
  len : ℕ
deriving DecidableEq, Repr

/-- struct edunic_rx_ring. `allocated` says that `desc` and `buf` are not NULL. -/
structure RxRing where
  allocated : Bool
  desc : ℕ → RxDesc
  buf : ℕ → RxBuf
  count : ℕ
  nextToUse : ℕ
  nextToClean : ℕ

/-- The RX fields of struct edunic_stats. -/
structure RxStats where
  rxPackets : UInt64
  rxBytes : UInt64
  rxErrors : UInt64
  rxDropped : UInt64
deriving DecidableEq, Repr

/-- Who has called edunic_alloc_rx_buffers: edunic_probe, or edunic_clean_rx_irq with the value
it is about to return. -/
inductive RxCaller
  | probe
  | clean (workDone : ℕ)
deriving DecidableEq, Repr

/-- Where the driver is: between calls, with what the last edunic_clean_rx_irq has returned; in
the loop of edunic_clean_rx_irq with its locals; in the loop of edunic_alloc_rx_buffers; behind a
`break` out of that loop; in an edunic_probe that has failed. -/
inductive RxDriver
  | idle (returned : ℕ)
  | harvesting (i workDone cleanedCount : ℕ) (budget : ℤ)
  | refilling (i cleanedCount posted : ℕ) (caller : RxCaller)
  | broken (i posted : ℕ) (caller : RxCaller)
  | failed
deriving DecidableEq, Repr

/-- What is done to a receive buffer, and what becomes of a frame. `gro` hands a packet to the
stack with its checksum vouched for or not. -/
inductive RxEvent
  | alloc (skb : SkBuff)
  | allocFailed
  | map (skb : SkBuff) (dma : UInt64)
  | mapFailed
  | unmap (dma : UInt64) (len : ℕ)
  | kfree (skb : SkBuff)
  | gro (skb : SkBuff) (csumUnnecessary : Bool)
  | received (frame : List UInt8)
  | dropped (frame : List UInt8)
deriving DecidableEq, Repr

/-- The RX fields of struct edunic_adapter, the registers RDH and RDT, and where the driver is. -/
structure RxAdapter where
  rxRing : RxRing
  rdh : ℕ
  rdt : ℕ
  stats : RxStats
  driver : RxDriver
  log : List RxEvent

/-- The ring both allocators have handed zeroed memory to. -/
def emptyRxRing : RxRing where
  allocated := true
  desc := fun _ => ⟨0,0,0,0⟩
  buf := fun _ => ⟨none,0,0⟩
  count := ringSize
  nextToUse := 0
  nextToClean := 0

/-- The outcome of edunic_setup_rx_resources: the ring, or ENOMEM after giving back what it
got. -/
def setupRxResources (descOk bufOk : Bool) : Option RxRing :=
  if descOk then
    if bufOk then some emptyRxRing else none
  else none

/-- memcpy of a frame to the start of a buffer. -/
def SkBuff.write (skb : SkBuff) (frame : List UInt8) : SkBuff :=
  { skb with data := frame ++ skb.data.drop frame.length }

/-- skb_put on an empty buffer: the packet is its first `len` bytes. -/
def SkBuff.put (skb : SkBuff) (len : ℕ) : SkBuff := { skb with data := skb.data.take len }

namespace RxRing

def setSlot (r : RxRing) (i : ℕ) (desc : RxDesc) (buf : RxBuf) : RxRing :=
  { r with desc := Function.update r.desc i desc, buf := Function.update r.buf i buf }

end RxRing

namespace RxAdapter

def note (a : RxAdapter) (es : List RxEvent) : RxAdapter := { a with log := a.log ++ es }

/-- edunic_hw_init_rings, as far as the RX ring is concerned. -/
def hwInitRings (a : RxAdapter) : RxAdapter := { a with rdh := 0, rdt := 0 }

/-- The call of edunic_alloc_rx_buffers. -/
def allocRxBuffers (a : RxAdapter) (cleanedCount : ℕ) (caller : RxCaller) : RxAdapter :=
  { a with driver := .refilling a.rxRing.nextToUse cleanedCount 0 caller }

/-- One round of the loop of edunic_alloc_rx_buffers, when `cleaned_count` is not 0 but
`left+1`: what netdev_alloc_skb_ip_align and then dma_map_single answer. -/
def refill (a : RxAdapter) (i left posted : ℕ) (caller : RxCaller) (skb : Option SkBuff)
    (mapping : Option UInt64) : RxAdapter :=
  match skb,mapping with
  | none,_ => { a.note [.allocFailed] with driver := .broken i posted caller }
  | some skb,none =>
    { a.note [.alloc skb,.mapFailed,.kfree skb] with driver := .broken i posted caller }
  | some skb,some dma =>
    { a.note [.alloc skb,.map skb dma] with
      rxRing := a.rxRing.setSlot i ⟨dma,0,0,0⟩ ⟨some skb,dma,rxBufSize⟩
      driver := .refilling (next i) left (posted+1) caller }

/-- The end of edunic_alloc_rx_buffers: the doorbell when something was posted, and the return
to the caller. edunic_probe gives up when nothing was. -/
def announce (a : RxAdapter) (i posted : ℕ) (caller : RxCaller) : RxAdapter :=
  let rung :=
    if posted ≠ 0 then { a with rxRing := { a.rxRing with nextToUse := i }, rdt := i } else a
  match caller with
  | .probe => { rung with driver := if posted ≠ 0 then .idle 0 else .failed }
  | .clean workDone => { rung with driver := .idle workDone }

/-- The body of the loop of edunic_clean_rx_irq. -/
def harvest (a : RxAdapter) (i workDone cleanedCount : ℕ) (budget : ℤ) : RxAdapter :=
  let desc := a.rxRing.desc i
  let buf := a.rxRing.buf i
  let len := desc.length.toNat
  let unmapped := a.note [.unmap buf.dma buf.len]
  let passed :=
    if desc.faulty then
      { unmapped.note (buf.skb.map RxEvent.kfree).toList with
        stats := { a.stats with rxErrors := a.stats.rxErrors+1 } }
    else
      { unmapped.note (buf.skb.map (fun skb => RxEvent.gro (skb.put len) desc.csumValid)).toList with
        stats := { a.stats with
          rxPackets := a.stats.rxPackets+1
          rxBytes := a.stats.rxBytes+UInt64.ofNat len } }
  { passed with
    rxRing := a.rxRing.setSlot i { desc with status := 0, errors := 0 }
      { buf with skb := none, dma := 0 }
    driver := .harvesting (next i) (workDone+1) ((cleanedCount+1) % 65536) budget }

/-- The end of edunic_clean_rx_irq. -/
def harvested (a : RxAdapter) (i workDone cleanedCount : ℕ) : RxAdapter :=
  let stored := { a with rxRing := { a.rxRing with nextToClean := i } }
  if cleanedCount ≠ 0 then stored.allocRxBuffers cleanedCount (.clean workDone)
  else { stored with driver := .idle workDone }

/-- edunic_hw_deliver_rx_frame. -/
def hwDeliverRxFrame (a : RxAdapter) (frame : List UInt8) : RxAdapter :=
  let head := a.rdh
  let tail := a.rdt
  if head = tail then
    { a.note [.dropped frame] with stats := { a.stats with rxDropped := a.stats.rxDropped+1 } }
  else
    let desc := a.rxRing.desc head
    let buf := a.rxRing.buf head
    let frame := if buf.len < frame.length then frame.take buf.len else frame
    { a.note [.received frame] with
      rxRing := a.rxRing.setSlot head
        { desc with length := UInt16.ofNat frame.length, errors := 0, status := rxdDelivered }
        { buf with skb := buf.skb.map (fun skb => skb.write frame) }
      rdh := next head }

/-- The body of the loop of edunic_free_rx_resources. -/
def freeSlot (a : RxAdapter) (i : ℕ) : RxAdapter :=
  let buf := a.rxRing.buf i
  match buf.skb with
  | none => a
  | some skb =>
    { a.note [.unmap buf.dma buf.len,.kfree skb] with
      rxRing := { a.rxRing with buf := Function.update a.rxRing.buf i { buf with skb := none } } }

/-- edunic_free_rx_resources. -/
def freeRxResources (a : RxAdapter) : RxAdapter :=
  if a.rxRing.allocated then
    let a := (List.range a.rxRing.count).foldl freeSlot a
    { a with rxRing := { a.rxRing with allocated := false } }
  else a

end RxAdapter

/-- A step of the receive path, with what its environment answers. -/
inductive RxLabel
  | deliver (frame : List UInt8)
  | clean (budget : ℤ)
  | harvest
  | harvested
  | refill (skb : Option SkBuff) (mapping : Option UInt64)
  | announce
  | free
deriving DecidableEq, Repr

namespace RxAdapter

/-- The condition of the loop of edunic_clean_rx_irq, with the test that leaves it. -/
def harvests (a : RxAdapter) (i workDone : ℕ) (budget : ℤ) : Prop :=
  (workDone : ℤ) < budget ∧ (a.rxRing.desc i).done = true

instance (a : RxAdapter) (i workDone : ℕ) (budget : ℤ) : Decidable (a.harvests i workDone budget) :=
  inferInstanceAs (Decidable (_ ∧ _))

/-- One step. A failed edunic_probe frees the ring, as does the removal; nothing comes after. -/
def rxStep (a : RxAdapter) (label : RxLabel) : Option RxAdapter :=
  if a.rxRing.allocated then
    match label,a.driver with
    | .deliver frame,_ => some (a.hwDeliverRxFrame frame)
    | .clean budget,.idle _ =>
      some { a with driver := .harvesting a.rxRing.nextToClean 0 0 budget }
    | .harvest,.harvesting i workDone cleanedCount budget =>
      if a.harvests i workDone budget then some (a.harvest i workDone cleanedCount budget)
      else none
    | .harvested,.harvesting i workDone cleanedCount budget =>
      if a.harvests i workDone budget then none else some (a.harvested i workDone cleanedCount)
    | .refill skb mapping,.refilling i (left+1) posted caller =>
      some (a.refill i left posted caller skb mapping)
    | .announce,.refilling i 0 posted caller => some (a.announce i posted caller)
    | .announce,.broken i posted caller => some (a.announce i posted caller)
    | .free,.idle _ => some a.freeRxResources
    | .free,.failed => some a.freeRxResources
    | _,_ => none
  else none

end RxAdapter

/-- The adapter when edunic_probe calls edunic_alloc_rx_buffers for the first time. -/
def probedRx (ring : RxRing) (rdh rdt : ℕ) : RxAdapter :=
  (RxAdapter.hwInitRings ⟨ring,rdh,rdt,⟨0,0,0,0⟩,.idle 0,[]⟩).allocRxBuffers (ring.count-1) .probe

/-- The receive path of one adapter. -/
def rxPath : Machine RxAdapter RxLabel where
  init a := ∃ descOk bufOk ring rdh rdt, setupRxResources descOk bufOk = some ring ∧
    a = probedRx ring rdh rdt
  step := RxAdapter.rxStep

end NetLab.Edunic
