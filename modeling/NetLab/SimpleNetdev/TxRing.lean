import Mathlib
import NetLab.Foundation.Machine

/-! The transmit ring of simple_netdev. A descriptor carries the driver's own fields beside the
device's; memory is a total function of the descriptor's number, so that staying below the ring's
size is something to prove. The log records what is done to packets and mappings. -/
namespace NetLab.SimpleNetdev

/-- TX_RING_SIZE. -/
def txRingSize : ℕ := 64

/-- DMA_MAPPING_ERROR, what a failed dma_map_single returns. -/
def dmaMappingError : UInt64 := 0xffffffffffffffff

/-- struct sk_buff: which buffer it is, and the bytes at `data`. -/
structure SkBuff where
  id : ℕ
  data : List UInt8
deriving DecidableEq, Repr

def SkBuff.len (skb : SkBuff) : ℕ := skb.data.length

/-- struct my_tx_desc. -/
structure TxDesc where
  skb : Option SkBuff
  dmaAddr : UInt64
  len : ℕ
  ownedByHw : Bool
  done : Bool
deriving DecidableEq, Repr

/-- A descriptor of zeroed memory. -/
def TxDesc.zero : TxDesc := ⟨none,0,0,false,false⟩

/-- What is done to a packet, and what the stack is told about it. -/
inductive TxEvent
  | map (skb : SkBuff) (dma : UInt64)
  | unmap (dma : UInt64) (len : ℕ)
  | kfree (skb : SkBuff)
  | accepted (skb : SkBuff)
  | refused (skb : SkBuff)
deriving DecidableEq, Repr

/-- The TX fields of struct my_priv, the register REG_TX_TAIL and the network queue.
`allocated` says that `tx_ring` is not NULL. -/
structure Priv where
  allocated : Bool
  txRing : ℕ → TxDesc
  txHead : ℕ
  txClean : ℕ
  txTail : ℕ
  queueStopped : Bool
  log : List TxEvent

inductive NetdevTx
  | ok
  | busy
deriving DecidableEq, Repr

/-- `(i + 1) % TX_RING_SIZE`. -/
def next (i : ℕ) : ℕ := (i+1) % txRingSize

namespace Priv

def note (p : Priv) (es : List TxEvent) : Priv := { p with log := p.log ++ es }

/-- my_tx_ring_full. -/
def txRingFull (p : Priv) : Bool := next p.txHead == p.txClean

/-- my_alloc_tx_desc_ring: zeroed memory, or -ENOMEM with nothing changed. -/
def allocTxDescRing (p : Priv) (memory : Bool) : Option Priv :=
  if memory then
    some { p with allocated := true, txRing := fun _ => TxDesc.zero, txHead := 0, txClean := 0 }
  else none

def setDesc (p : Priv) (i : ℕ) (desc : TxDesc) : Priv :=
  { p with txRing := Function.update p.txRing i desc }

/-- The descriptor at `tx_head` after a mapping that has failed. -/
def mapFailed (p : Priv) (skb : SkBuff) : Priv :=
  (p.setDesc p.txHead { p.txRing p.txHead with dmaAddr := dmaMappingError }).note [.kfree skb]

/-- The descriptor at `tx_head` filled and handed to the device. -/
def fill (p : Priv) (skb : SkBuff) (dma : UInt64) : Priv :=
  (p.setDesc p.txHead
    { skb := some skb, dmaAddr := dma, len := skb.len, done := false, ownedByHw := true }).note
    [.map skb dma]

def advanceHead (p : Priv) : Priv := { p with txHead := next p.txHead }

/-- Writing REG_TX_TAIL. -/
def ringDoorbell (p : Priv) : Priv := { p with txTail := p.txHead }

/-- my_start_xmit. `mapping` is what dma_map_single answers when it is asked. -/
def startXmit (p : Priv) (skb : SkBuff) (mapping : Option UInt64) : Priv × NetdevTx :=
  if p.txRingFull then ({ p with queueStopped := true }.note [.refused skb],.busy)
  else
    match mapping with
    | none => ((p.mapFailed skb).note [.accepted skb],.ok)
    | some dma => ((p.fill skb dma).advanceHead.ringDoorbell.note [.accepted skb],.ok)

/-- The device completes a descriptor it owns. -/
def complete (p : Priv) (i : ℕ) : Priv :=
  p.setDesc i { p.txRing i with ownedByHw := false, done := true }

/-- my_tx_clean may reclaim the descriptor at `tx_clean`. -/
def reclaimable (p : Priv) : Bool :=
  !(p.txRing p.txClean).ownedByHw && (p.txRing p.txClean).done

/-- The body of the loop of my_tx_clean, but for the last assignment. -/
def reclaim (p : Priv) : Priv :=
  let desc := p.txRing p.txClean
  (p.setDesc p.txClean TxDesc.zero).note
    (.unmap desc.dmaAddr desc.len :: (desc.skb.map TxEvent.kfree).toList)

def advanceClean (p : Priv) : Priv := { p with txClean := next p.txClean }

/-- The loop of my_tx_clean. It is given a number of rounds and has no result when these do not
suffice. -/
def cleanLoop : ℕ → Priv → Option Priv
  | 0,_ => none
  | fuel+1,p =>
    if p.txClean ≠ p.txHead ∧ p.reclaimable then cleanLoop fuel p.reclaim.advanceClean
    else some p

/-- The end of my_tx_clean: the queue is restarted when it is stopped and there is room. -/
def wake (p : Priv) : Priv :=
  if p.queueStopped && !p.txRingFull then { p with queueStopped := false } else p

/-- my_tx_clean. -/
def cleanTx (p : Priv) : Option Priv := (cleanLoop txRingSize p).map wake

/-- The body of the loop of my_free_pending_tx. -/
def freeSlot (p : Priv) (i : ℕ) : Priv :=
  let desc := p.txRing i
  match desc.skb with
  | none => p
  | some skb =>
    (p.setDesc i { desc with skb := none }).note [.unmap desc.dmaAddr desc.len,.kfree skb]

/-- my_free_pending_tx. -/
def freePendingTx (p : Priv) : Priv :=
  if p.allocated then (List.range txRingSize).foldl freeSlot p else p

/-- my_free_desc_rings. -/
def freeDescRings (p : Priv) : Priv := { p with allocated := false }

end Priv

/-- A step of the transmit path, with what its environment answers. -/
inductive TxLabel
  | xmit (skb : SkBuff) (mapping : Option UInt64)
  | complete (i : ℕ)
  | clean
  | remove
deriving DecidableEq, Repr

/-- One step. The device completes a descriptor of the ring that it owns. After the removal
nothing comes. -/
def Priv.txStep (p : Priv) (label : TxLabel) : Option Priv :=
  if p.allocated then
    match label with
    | .xmit skb mapping => some (p.startXmit skb mapping).1
    | .complete i => if i < txRingSize ∧ (p.txRing i).ownedByHw then some (p.complete i) else none
    | .clean => p.cleanTx
    | .remove => some p.freePendingTx.freeDescRings
  else none

/-- The private data before the ring is allocated, with whatever REG_TX_TAIL holds. -/
def Priv.fresh (txTail : ℕ) : Priv := ⟨false,fun _ => TxDesc.zero,0,0,txTail,false,[]⟩

/-- The transmit path of one device, from the allocation of the ring on. -/
def txPath : Machine Priv TxLabel where
  init p := ∃ memory txTail, (Priv.fresh txTail).allocTxDescRing memory = some p
  step := Priv.txStep

end NetLab.SimpleNetdev
