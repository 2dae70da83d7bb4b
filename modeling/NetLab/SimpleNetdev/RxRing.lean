import NetLab.Foundation.Segment
import NetLab.SimpleNetdev.Interrupt

/-! The receive ring of simple_netdev: my_alloc_rx_buffers, and my_poll against the device that
fills the buffers. The accesses of my_poll and of the device are steps of their own. -/
namespace NetLab.SimpleNetdev

/-- RX_RING_SIZE. -/
def rxRingSize : ℕ := 64

/-- RX_BUFFER_SIZE. -/
def rxBufferSize : ℕ := 2048

/-- struct my_rx_desc; `buf` is the address that kmalloc returned. -/
structure RxDesc where
  buf : Option ℕ
  dmaAddr : UInt64
  len : ℕ
  ownedByHw : Bool
  done : Bool
deriving DecidableEq, Repr

/-- What my_alloc_rx_desc_ring leaves. -/
def RxDesc.zero : RxDesc := ⟨none,0,0,false,false⟩

/-- A descriptor that is ready for the device. -/
def RxDesc.fresh (buf : ℕ) (dma : UInt64) : RxDesc := ⟨some buf,dma,0,true,false⟩

/-- The `len` bytes at `buf`, where `buffer` is what the buffers contain. -/
def RxDesc.bytes (buffer : ℕ → ℕ → UInt8) (desc : RxDesc) : List UInt8 :=
  match desc.buf with
  | none => []
  | some buf => segment (buffer buf) 0 desc.len

/-- What kmalloc and dma_map_single answer for one descriptor. -/
structure RxAlloc where
  buf : Option ℕ
  mapping : Option UInt64

/-- The error path of my_alloc_rx_buffers, for the descriptors below `i`. -/
def unwindRx : ℕ → (ℕ → RxDesc) → ℕ → RxDesc
  | 0,ring => ring
  | i+1,ring => unwindRx i (Function.update ring i { ring i with buf := none })

/-- The loop of my_alloc_rx_buffers with `n` descriptors to go; an error is -ENOMEM and what the
error path leaves of the ring. -/
def allocRxFrom (answers : ℕ → RxAlloc) : ℕ → ℕ → (ℕ → RxDesc) → Except (ℕ → RxDesc) (ℕ → RxDesc)
  | 0,_,ring => .ok ring
  | n+1,i,ring =>
    match (answers i).buf with
    | none => .error (unwindRx i (Function.update ring i { ring i with buf := none }))
    | some buf =>
      match (answers i).mapping with
      | none => .error (unwindRx i (Function.update ring i
          { ring i with buf := none, dmaAddr := dmaMappingError }))
      | some dma => allocRxFrom answers n (i+1) (Function.update ring i (.fresh buf dma))

/-- my_alloc_rx_buffers on the ring that my_alloc_rx_desc_ring has zeroed. -/
def allocRxBuffers (answers : ℕ → RxAlloc) : Except (ℕ → RxDesc) (ℕ → RxDesc) :=
  allocRxFrom answers rxRingSize 0 (fun _ => RxDesc.zero)

/-- `(i + 1) % RX_RING_SIZE`. -/
def nextRx (i : ℕ) : ℕ := (i+1) % rxRingSize

/-- What happens to frames, buffers and calls. -/
inductive RxEvent
  /-- The device has filled the next descriptor. -/
  | arrived (frame : List UInt8)
  /-- my_poll is called with a budget, finds a descriptor that is not done, and returns. -/
  | called (budget : ℕ)
  | stopped
  | completed (unmasked : Bool)
  | returned (workDone : ℕ)
  | syncForCpu (dma : UInt64) (len : ℕ)
  /-- A descriptor that is done is taken; netdev_alloc_skb has succeeded or not. -/
  | harvested (allocated : Bool)
  /-- netif_receive_skb. -/
  | received (frame : List UInt8)
  | syncForDevice (dma : UInt64) (len : ℕ)
  /-- The descriptor as the device gets it back. -/
  | recycled (i : ℕ) (desc : RxDesc)
deriving DecidableEq

/-- Where my_poll is: before the loop test and the read of owned_by_hw, before the read of done,
before the packet is taken, before the refill, before the ownership is given away, before rx_head
is moved, before napi_complete_done. -/
inductive RxPc
  | idle
  | loop (budget workDone : ℕ)
  | checkDone (budget workDone : ℕ)
  | take (budget workDone : ℕ)
  | refill (budget workDone : ℕ)
  | give (budget workDone : ℕ)
  | advance (budget workDone : ℕ)
  | complete (workDone : ℕ)
deriving DecidableEq

/-- The RX fields of struct my_priv with the registers my_poll writes, the contents of the
buffers, and the device: the descriptor it fills next and the frame it has put there. -/
structure RxPoll where
  rxRing : ℕ → RxDesc
  rxHead : ℕ
  rxTail : ℕ
  irqMask : UInt32
  buffer : ℕ → ℕ → UInt8
  pc : RxPc
  device : ℕ
  loaded : Option (List UInt8)
  log : List RxEvent

namespace RxPoll

def note (s : RxPoll) (es : List RxEvent) : RxPoll := { s with log := s.log ++ es }

def setDesc (s : RxPoll) (i : ℕ) (desc : RxDesc) : RxPoll :=
  { s with rxRing := Function.update s.rxRing i desc }

def goto (s : RxPoll) (pc : RxPc) : RxPoll := { s with pc := pc }

/-- `rx_ring[rx_head]`. -/
def desc (s : RxPoll) : RxDesc := s.rxRing s.rxHead

/-- The next step of my_poll. `answer` is what netdev_alloc_skb or napi_complete_done answers. -/
def poll (s : RxPoll) (answer : Bool) : RxPoll :=
  match s.pc with
  | .idle => s
  | .loop budget workDone =>
    if workDone < budget then
      if s.desc.ownedByHw then (s.note [.stopped]).goto (.complete workDone)
      else s.goto (.checkDone budget workDone)
    else (s.note [.returned workDone]).goto .idle
  | .checkDone budget workDone =>
    if s.desc.done then s.goto (.take budget workDone)
    else (s.note [.stopped]).goto (.complete workDone)
  | .take budget workDone =>
    (s.note ([.syncForCpu s.desc.dmaAddr s.desc.len,.harvested answer] ++
      if answer then [.received (s.desc.bytes s.buffer)] else [])).goto (.refill budget workDone)
  | .refill budget workDone =>
    ((s.setDesc s.rxHead { s.desc with len := 0, done := false }).note
      [.syncForDevice s.desc.dmaAddr rxBufferSize]).goto (.give budget workDone)
  | .give budget workDone =>
    ((s.setDesc s.rxHead { s.desc with ownedByHw := true }).note
      [.recycled s.rxHead { s.desc with ownedByHw := true }]).goto (.advance budget workDone)
  | .advance budget workDone =>
    { s with rxHead := nextRx s.rxHead, rxTail := nextRx s.rxHead }.goto (.loop budget (workDone+1))
  | .complete workDone =>
    ({ s with irqMask := if answer then irqRx ||| irqTx else s.irqMask }.note
      [.completed answer,.returned workDone]).goto .idle

/-- The device puts a frame into the buffer of its next descriptor. -/
def fill (s : RxPoll) (buf : ℕ) (frame : List UInt8) : RxPoll :=
  { s.setDesc s.device { s.rxRing s.device with len := frame.length } with
    buffer := Function.update s.buffer buf (storeAt (s.buffer buf) 0 frame)
    loaded := some frame }

/-- The device completes that descriptor. -/
def deliver (s : RxPoll) (frame : List UInt8) : RxPoll :=
  { (s.setDesc s.device { s.rxRing s.device with ownedByHw := false, done := true }).note
      [.arrived frame] with
    device := nextRx s.device, loaded := none }

end RxPoll

inductive RxLabel
  | call (budget : ℕ)
  | poll (answer : Bool)
  | fill (frame : List UInt8)
  | deliver
deriving DecidableEq

def RxPoll.step (s : RxPoll) : RxLabel → Option RxPoll
  | .call budget =>
    if s.pc = .idle then some ((s.note [.called budget]).goto (.loop budget 0)) else none
  | .poll answer => if s.pc ≠ .idle then some (s.poll answer) else none
  | .fill frame =>
    match (s.rxRing s.device).buf with
    | none => none
    | some buf =>
      if (s.rxRing s.device).ownedByHw = true ∧ s.loaded = none ∧ 0 < frame.length ∧
          frame.length ≤ rxBufferSize then
        some (s.fill buf frame)
      else none
  | .deliver =>
    match s.loaded with
    | none => none
    | some frame => some (s.deliver frame)

/-- my_poll and the device on a ring that has just been allocated. -/
def rxPoll (ring : ℕ → RxDesc) : Machine RxPoll RxLabel where
  init s := s.rxRing = ring ∧ s.rxHead = 0 ∧ s.pc = .idle ∧ s.device = 0 ∧ s.loaded = none ∧
    s.log = []
  step := RxPoll.step

end NetLab.SimpleNetdev
