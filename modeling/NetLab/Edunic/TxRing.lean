import Mathlib
import NetLab.Foundation.Machine
import NetLab.Foundation.Ring

/-! The transmit half of the edunic driver and of its emulated device: nic_tx.c, and the DMA
engine of nic_hw.c. Pointers into the two ring arrays are cell numbers; memory is a total
function of the number, so that staying below the ring's size is something to prove. The log
records what is done to buffers and mappings and what the stack was answered. -/
namespace NetLab.Edunic

def ringSize : ℕ := 256
def ringMask : ℕ := ringSize-1

/-- EDUNIC_TX_DESC_PER_PKT. -/
def txDescPerPkt : ℕ := 1

/-- EDUNIC_TXD_CMD_EOP | EDUNIC_TXD_CMD_RS. -/
def txdCmd : UInt8 := 1 ||| 2

/-- EDUNIC_TXD_STAT_DD. -/
def txdStatDD : UInt8 := 1

/-- struct sk_buff: which buffer it is, and the bytes at `data`. -/
structure SkBuff where
  id : ℕ
  data : List UInt8
deriving DecidableEq, Repr

def SkBuff.len (skb : SkBuff) : ℕ := skb.data.length

/-- struct edunic_tx_desc, without the placeholders the model of the device ignores. -/
structure TxDesc where
  bufferAddr : UInt64
  length : UInt16
  cmd : UInt8
  status : UInt8
deriving DecidableEq, Repr

def TxDesc.done (desc : TxDesc) : Bool := desc.status &&& txdStatDD != 0

/-- struct edunic_tx_buf. -/
structure TxBuf where
  skb : Option SkBuff
  dma : UInt64
  len : ℕ
deriving DecidableEq, Repr

/-- struct edunic_tx_ring. `allocated` says that `desc` and `buf` are not NULL: they are
allocated together and released together. -/
structure TxRing where
  allocated : Bool
  desc : ℕ → TxDesc
  buf : ℕ → TxBuf
  count : ℕ
  nextToUse : ℕ
  nextToClean : ℕ

/-- The TX fields of struct edunic_stats. -/
structure TxStats where
  txPackets : UInt64
  txBytes : UInt64
  txErrors : UInt64
deriving DecidableEq, Repr

/-- The locals of an execution of edunic_hw_tx_worker. -/
structure TxWorker where
  head : ℕ
  tail : ℕ
  sentAny : Bool
deriving DecidableEq, Repr

/-- What is done to a packet, and what the stack is told about it. -/
inductive TxEvent
  | map (skb : SkBuff) (dma : UInt64)
  | unmap (dma : UInt64) (len : ℕ)
  | kfree (skb : SkBuff)
  | consume (skb : SkBuff)
  | sync (dma : UInt64) (len : ℕ)
  | copy (skb : Option SkBuff) (frame : List UInt8)
  | complete (buf : TxBuf)
  | interrupt
  | accepted (skb : SkBuff)
  | refused (skb : SkBuff)
deriving DecidableEq, Repr

/-- struct edunic_adapter, its registers TDH and TDT, the state of the network queue and of
the one work item of the ordered workqueue: pending, and running if it is. -/
structure Adapter where
  txRing : TxRing
  tdh : ℕ
  tdt : ℕ
  stats : TxStats
  queueStopped : Bool
  workPending : Bool
  txWorker : Option TxWorker
  log : List TxEvent

namespace Adapter

def note (a : Adapter) (es : List TxEvent) : Adapter := { a with log := a.log ++ es }

end Adapter

/-- `(i + 1) & EDUNIC_RING_MASK`. -/
def next (i : ℕ) : ℕ := (i+1) &&& ringMask

/-- The assignment of an `int` to a `u16`. -/
def u16 (x : ℤ) : ℕ := (x % 65536).toNat

/-- The free slots; the subtraction is one of `int`, as is its C remainder. -/
def TxRing.unused (r : TxRing) : ℕ :=
  u16 (Int.tmod ((r.nextToClean : ℤ)-r.nextToUse-1+r.count) r.count)

/-- The ring both allocators have handed zeroed memory to. -/
def emptyTxRing : TxRing where
  allocated := true
  desc := fun _ => ⟨0,0,0,0⟩
  buf := fun _ => ⟨none,0,0⟩
  count := ringSize
  nextToUse := 0
  nextToClean := 0

/-- The outcome of edunic_setup_tx_resources: the ring, or ENOMEM after giving back what it
got. -/
def setupTxResources (descOk bufOk : Bool) : Option TxRing :=
  if descOk then
    if bufOk then some emptyTxRing else none
  else none

namespace Adapter

/-- edunic_hw_init_rings, as far as the TX ring is concerned. -/
def hwInitRings (a : Adapter) : Adapter := { a with tdh := 0, tdt := 0 }

/-- edunic_maybe_stop_tx; the result says whether it is -EBUSY. -/
def maybeStopTx (a : Adapter) (needed : ℕ) : Adapter × Bool :=
  if needed ≤ a.txRing.unused then (a,false)
  else
    let stopped := { a with queueStopped := true }
    if stopped.txRing.unused < needed then (stopped,true)
    else ({ stopped with queueStopped := false },false)

/-- edunic_hw_kick_tx: queueing a work item that is pending already changes nothing. -/
def hwKickTx (a : Adapter) : Adapter := { a with workPending := true }

/-- The part of edunic_start_xmit that fills the slot at `next_to_use` and moves on. -/
def post (a : Adapter) (skb : SkBuff) (dma : UInt64) : Adapter :=
  let i := a.txRing.nextToUse
  { a with
    txRing := { a.txRing with
      buf := Function.update a.txRing.buf i ⟨some skb,dma,skb.len⟩
      desc := Function.update a.txRing.desc i ⟨dma,UInt16.ofNat skb.len,txdCmd,0⟩
      nextToUse := next i } }

/-- Writing the TDT register. -/
def ringDoorbell (a : Adapter) : Adapter := { a with tdt := a.txRing.nextToUse }

end Adapter

inductive NetdevTx
  | ok
  | busy
deriving DecidableEq, Repr

namespace Adapter

/-- edunic_start_xmit. `mapping` is what dma_map_single answers when it is asked. -/
def startXmit (a : Adapter) (skb : SkBuff) (mapping : Option UInt64) : Adapter × NetdevTx :=
  match a.maybeStopTx txDescPerPkt with
  | (a,true) => (a.note [.refused skb],.busy)
  | (a,false) =>
    match mapping with
    | none =>
      let stats := { a.stats with txErrors := a.stats.txErrors+1 }
      ({ a with stats }.note [.kfree skb,.accepted skb],.ok)
    | some dma =>
      let posted := ((a.note [.map skb dma]).post skb dma).ringDoorbell.hwKickTx
      ((posted.maybeStopTx txDescPerPkt).1.note [.accepted skb],.ok)

/-- The entry of edunic_hw_tx_worker: it reads TDH and TDT. -/
def hwTxWorkerStart (a : Adapter) : Adapter :=
  { a with workPending := false, txWorker := some ⟨a.tdh,a.tdt,false⟩ }

end Adapter

/-- What the worker does with the packet of a slot before it marks the slot done: the copy
for the receive ring, when kmalloc succeeds. -/
def fetch (buf : TxBuf) (len : ℕ) (kmallocOk : Bool) : List TxEvent :=
  if buf.dma ≠ 0 ∧ len ≠ 0 then
    .sync buf.dma len ::
      (if kmallocOk then [.copy buf.skb (((buf.skb.map SkBuff.data).getD []).take len)] else []) ++
      [.sync buf.dma len]
  else []

namespace Adapter

/-- One round of the loop of edunic_hw_tx_worker. -/
def hwTxWorkerRound (a : Adapter) (w : TxWorker) (kmallocOk : Bool) : Adapter :=
  let desc := a.txRing.desc w.head
  let buf := a.txRing.buf w.head
  let fetched := a.note (fetch buf desc.length.toNat kmallocOk ++ [.complete buf])
  { fetched with
    txRing := { a.txRing with
      desc := Function.update a.txRing.desc w.head { desc with status := txdStatDD } }
    txWorker := some ⟨next w.head,w.tail,true⟩ }

/-- The end of edunic_hw_tx_worker, after its loop. -/
def hwTxWorkerEnd (a : Adapter) (w : TxWorker) : Adapter :=
  if w.sentAny then { a.note [.interrupt] with tdh := w.head, txWorker := none }
  else { a with txWorker := none }

/-- The body of the loop of edunic_clean_tx_irq, for slot `i`. -/
def reclaim (a : Adapter) (i : ℕ) : Adapter :=
  let buf := a.txRing.buf i
  let desc := a.txRing.desc i
  let released := a.note (.unmap buf.dma buf.len :: (buf.skb.map TxEvent.consume).toList)
  { released with
    txRing := { a.txRing with
      buf := Function.update a.txRing.buf i ⟨none,0,0⟩
      desc := Function.update a.txRing.desc i { desc with status := 0 } } }

/-- The loop of edunic_clean_tx_irq from slot `i` on, with the counts so far. It is given a
number of rounds and has no result when these do not suffice. -/
def cleanLoop : ℕ → Adapter → ℕ → ℕ → UInt32 → Option (Adapter × ℕ × ℕ × UInt32)
  | 0,_,_,_,_ => none
  | fuel+1,a,i,packets,bytes =>
    if i ≠ a.txRing.nextToUse ∧ (a.txRing.desc i).done then
      cleanLoop fuel (a.reclaim i) (next i) (packets+1)
        (bytes+UInt32.ofNat (a.txRing.buf i).len)
    else some (a,i,packets,bytes)

/-- What edunic_clean_tx_irq does after its loop when it has reclaimed something. -/
def cleaned (a : Adapter) (packets : ℕ) (bytes : UInt32) : Adapter :=
  let stats :=
    { a.stats with
      txPackets := a.stats.txPackets+UInt64.ofNat packets
      txBytes := a.stats.txBytes+bytes.toUInt64 }
  if a.queueStopped ∧ txDescPerPkt ≤ a.txRing.unused then { a with stats, queueStopped := false }
  else { a with stats }

/-- edunic_clean_tx_irq, with the number of packets it returns. -/
def cleanTxIrq (a : Adapter) : Option (Adapter × ℕ) := do
  let (a,i,packets,bytes) ← a.cleanLoop ringSize a.txRing.nextToClean 0 0
  let a := { a with txRing := { a.txRing with nextToClean := i } }
  if packets ≠ 0 then return (a.cleaned packets bytes,packets)
  else return (a,packets)

/-- The body of the loop of edunic_free_tx_resources. -/
def freeSlot (a : Adapter) (i : ℕ) : Adapter :=
  let buf := a.txRing.buf i
  match buf.skb with
  | none => a
  | some skb =>
    { a.note [.unmap buf.dma buf.len,.kfree skb] with
      txRing := { a.txRing with
        buf := Function.update a.txRing.buf i { buf with skb := none } } }

/-- edunic_free_tx_resources. -/
def freeTxResources (a : Adapter) : Adapter :=
  if a.txRing.allocated then
    let a := (List.range a.txRing.count).foldl freeSlot a
    { a with txRing := { a.txRing with allocated := false } }
  else a

end Adapter

/-- A step of the transmit path, with what its environment answers. -/
inductive TxLabel
  | xmit (skb : SkBuff) (mapping : Option UInt64)
  | workerStart
  | workerRound (kmallocOk : Bool)
  | workerEnd
  | clean
  | remove
deriving DecidableEq, Repr

namespace Adapter

/-- One step. A work item starts when it is pending and not running. Removal cancels it,
which waits for a running execution to end, and frees the ring; nothing comes after it. -/
def txStep (a : Adapter) (label : TxLabel) : Option Adapter :=
  if a.txRing.allocated then
    match label,a.txWorker with
    | .xmit skb mapping,_ => some (a.startXmit skb mapping).1
    | .clean,_ => a.cleanTxIrq.map Prod.fst
    | .workerStart,none => if a.workPending then some a.hwTxWorkerStart else none
    | .workerRound kmallocOk,some w =>
      if w.head ≠ w.tail then some (a.hwTxWorkerRound w kmallocOk) else none
    | .workerEnd,some w => if w.head = w.tail then some (a.hwTxWorkerEnd w) else none
    | .remove,none => some { a with workPending := false }.freeTxResources
    | _,_ => none
  else none

end Adapter

/-- The adapter after edunic_probe has set up `ring`. -/
def probed (ring : TxRing) (tdh tdt : ℕ) : Adapter :=
  Adapter.hwInitRings ⟨ring,tdh,tdt,⟨0,0,0⟩,false,false,none,[]⟩

/-- The transmit path of one adapter. -/
def txPath : Machine Adapter TxLabel where
  init a := ∃ descOk bufOk ring tdh tdt, setupTxResources descOk bufOk = some ring ∧
    a = probed ring tdh tdt
  step := Adapter.txStep

end NetLab.Edunic
