import Mathlib
import NetLab.Edunic.TxRing

/-! The log of the transmit path as the history of one queue: mapped packets are completed and
released from its front, in order, and each release gives back what the packet was mapped with. -/
namespace NetLab.Edunic

def TxEvent.mapped? : TxEvent → Option TxBuf
  | .map skb dma => some ⟨some skb,dma,skb.len⟩
  | _ => none

def TxEvent.unmapped? : TxEvent → Option (UInt64 × ℕ)
  | .unmap dma len => some (dma,len)
  | _ => none

def TxEvent.completed? : TxEvent → Option TxBuf
  | .complete buf => some buf
  | _ => none

def TxEvent.consumed? : TxEvent → Option SkBuff
  | .consume skb => some skb
  | _ => none

def TxEvent.kfreed? : TxEvent → Option SkBuff
  | .kfree skb => some skb
  | _ => none

def TxEvent.accepted? : TxEvent → Option SkBuff
  | .accepted skb => some skb
  | _ => none

/-- The packets mapped for the device, in order. -/
def mapped (log : List TxEvent) : List TxBuf := log.filterMap TxEvent.mapped?

/-- The address and length of each mapping given back, in order. -/
def unmapped (log : List TxEvent) : List (UInt64 × ℕ) := log.filterMap TxEvent.unmapped?

/-- The packets the device marked done, in order. -/
def completed (log : List TxEvent) : List TxBuf := log.filterMap TxEvent.completed?

/-- The packets freed after completion, in order. -/
def consumed (log : List TxEvent) : List SkBuff := log.filterMap TxEvent.consumed?

/-- The packets freed without completion. -/
def kfreed (log : List TxEvent) : List SkBuff := log.filterMap TxEvent.kfreed?

/-- The packets for which the stack was answered NETDEV_TX_OK. -/
def accepted (log : List TxEvent) : List SkBuff := log.filterMap TxEvent.accepted?

@[simp] theorem mapped_append (xs ys : List TxEvent) : mapped (xs++ys) = mapped xs ++ mapped ys :=
  List.filterMap_append

@[simp] theorem unmapped_append (xs ys : List TxEvent) : unmapped (xs++ys) = unmapped xs ++ unmapped ys :=
  List.filterMap_append

@[simp] theorem completed_append (xs ys : List TxEvent) : completed (xs++ys) = completed xs ++ completed ys :=
  List.filterMap_append

@[simp] theorem consumed_append (xs ys : List TxEvent) : consumed (xs++ys) = consumed xs ++ consumed ys :=
  List.filterMap_append

@[simp] theorem kfreed_append (xs ys : List TxEvent) : kfreed (xs++ys) = kfreed xs ++ kfreed ys :=
  List.filterMap_append

@[simp] theorem accepted_append (xs ys : List TxEvent) : accepted (xs++ys) = accepted xs ++ accepted ys :=
  List.filterMap_append

/-- What dma_unmap_single has to be given for a packet. -/
def TxBuf.mapping (buf : TxBuf) : UInt64 × ℕ := (buf.dma,buf.len)

/-- The log of a queue that has released `gone`, holds `queue` and has completed the first
`d` packets of it. -/
structure Ledger (log : List TxEvent) (gone queue : List TxBuf) (d : ℕ) : Prop where
  mapped : mapped log = gone ++ queue
  completed : completed log = gone ++ queue.take d
  unmapped : unmapped log = gone.map TxBuf.mapping
  consumed : (consumed log).map some = gone.map TxBuf.skb
  accepted : (accepted log).Perm (kfreed log ++ (gone++queue).filterMap TxBuf.skb)

namespace Ledger

variable {log : List TxEvent} {gone queue : List TxBuf} {d : ℕ}

theorem empty : Ledger [] [] [] 0 := ⟨rfl,rfl,rfl,rfl,List.Perm.nil⟩

/-- New events keep the ledger when they move its two lists as they should. -/
theorem extend (h : Ledger log gone queue d) {es : List TxEvent} {gone' queue' : List TxBuf}
    {d' : ℕ} (hm : gone++queue++Edunic.mapped es = gone'++queue')
    (hc : gone++queue.take d++Edunic.completed es = gone'++queue'.take d')
    (hu : gone.map TxBuf.mapping++Edunic.unmapped es = gone'.map TxBuf.mapping)
    (hf : gone.map TxBuf.skb++(Edunic.consumed es).map some = gone'.map TxBuf.skb)
    (ha : (((gone++queue).filterMap TxBuf.skb)++Edunic.accepted es).Perm
      (kfreed es++(gone'++queue').filterMap TxBuf.skb)) :
    Ledger (log++es) gone' queue' d' := by
  constructor
  · rw [mapped_append,h.mapped,hm]
  · rw [completed_append,h.completed,hc]
  · rw [unmapped_append,h.unmapped,hu]
  · rw [consumed_append,List.map_append,h.consumed,hf]
  · rw [accepted_append,kfreed_append,List.append_assoc]
    refine (h.accepted.append_right _).trans ?_
    rw [List.append_assoc]
    exact ha.append_left _

/-- An event that is none of those the ledger counts. -/
def Silent (e : TxEvent) : Prop :=
  e.mapped? = none ∧ e.unmapped? = none ∧ e.completed? = none ∧ e.consumed? = none ∧
    e.kfreed? = none ∧ e.accepted? = none

theorem silent (h : Ledger log gone queue d) {es : List TxEvent} (hes : ∀ e ∈ es, Silent e) :
    Ledger (log++es) gone queue d := by
  have hnil : ∀ {β : Type} (f : TxEvent → Option β), (∀ e ∈ es, f e = none) →
      es.filterMap f = [] := fun f hf => List.filterMap_eq_nil_iff.mpr hf
  have h1 : Edunic.mapped es = [] := hnil _ (fun e he => (hes e he).1)
  have h2 : Edunic.unmapped es = [] := hnil _ (fun e he => (hes e he).2.1)
  have h3 : Edunic.completed es = [] := hnil _ (fun e he => (hes e he).2.2.1)
  have h4 : Edunic.consumed es = [] := hnil _ (fun e he => (hes e he).2.2.2.1)
  have h5 : kfreed es = [] := hnil _ (fun e he => (hes e he).2.2.2.2.1)
  have h6 : Edunic.accepted es = [] := hnil _ (fun e he => (hes e he).2.2.2.2.2)
  apply h.extend <;> simp [h1,h2,h3,h4,h5,h6]

/-- A packet whose mapping fails is freed and reported as sent. -/
theorem drop (h : Ledger log gone queue d) (skb : SkBuff) :
    Ledger (log++[.kfree skb,.accepted skb]) gone queue d := by
  apply h.extend
  · exact List.append_nil _
  · exact List.append_nil _
  · exact List.append_nil _
  · exact List.append_nil _
  · exact List.perm_append_comm

/-- A mapped packet joins the queue. -/
theorem post (h : Ledger log gone queue d) (hd : d ≤ queue.length) (skb : SkBuff)
    (dma : UInt64) :
    Ledger (log++[.map skb dma,.accepted skb]) gone (queue++[⟨some skb,dma,skb.len⟩]) d := by
  apply h.extend
  · exact List.append_assoc _ _ _
  · rw [List.take_append_of_le_length hd]
    exact List.append_nil _
  · exact List.append_nil _
  · exact List.append_nil _
  · simp [Edunic.accepted,kfreed,List.filterMap_cons,TxEvent.accepted?,TxEvent.kfreed?]

/-- The device completes the first packet it has not completed yet. -/
theorem complete (h : Ledger log gone queue d) (hd : d < queue.length) :
    Ledger (log++[.complete queue[d]]) gone queue (d+1) := by
  apply h.extend
  · exact List.append_nil _
  · rw [List.take_succ_eq_append_getElem hd]
    exact List.append_assoc _ _ _
  · exact List.append_nil _
  · exact List.append_nil _
  · exact List.Perm.of_eq (List.append_nil _)

/-- The driver releases the front of the queue, which the device has completed. -/
theorem release {skb : SkBuff} {dma : UInt64} {len : ℕ}
    (h : Ledger log gone (⟨some skb,dma,len⟩::queue) (d+1)) :
    Ledger (log++[.unmap dma len,.consume skb]) (gone++[⟨some skb,dma,len⟩]) queue d := by
  apply h.extend
  · simp [Edunic.mapped,List.filterMap_cons,TxEvent.mapped?]
  · simp [Edunic.completed,List.filterMap_cons,TxEvent.completed?]
  · simp [Edunic.unmapped,List.filterMap_cons,TxEvent.unmapped?,TxBuf.mapping]
  · simp [Edunic.consumed,List.filterMap_cons,TxEvent.consumed?]
  · simp [Edunic.accepted,kfreed,List.filterMap_cons,TxEvent.accepted?,TxEvent.kfreed?]

end Ledger

end NetLab.Edunic
