import Mathlib
import NetLab.Edunic.RxRing
import NetLab.Edunic.Wakeup

/-! The edunic driver and its emulated device together: nic_irq.c, edunic_open and edunic_stop of
nic_main.c, edunic_hw_start, edunic_hw_stop, the worker and the link timer of nic_hw.c. The
worker's rounds, the poll's calls and the statements of edunic_open and edunic_stop are steps of
their own and interleave freely; edunic_intr is one step. -/
namespace NetLab.Edunic

/-- The bits EDUNIC_INT_RX, EDUNIC_INT_TX and EDUNIC_INT_LSC of ICR, ICS, IMS and IMC. -/
structure Causes where
  rx : Bool
  tx : Bool
  lsc : Bool
deriving DecidableEq, Repr

def Causes.none : Causes := ⟨false,false,false⟩

/-- EDUNIC_INT_ALL. -/
def Causes.all : Causes := ⟨true,true,true⟩

/-- Writing `written` to ICS, or to IMS. -/
def Causes.set (causes written : Causes) : Causes :=
  ⟨causes.rx || written.rx,causes.tx || written.tx,causes.lsc || written.lsc⟩

/-- Writing `written` to IMC. -/
def Causes.clear (causes written : Causes) : Causes :=
  ⟨causes.rx && !written.rx,causes.tx && !written.tx,causes.lsc && !written.lsc⟩

/-- EDUNIC_INT_RX | EDUNIC_INT_TX. -/
def rxTx : Causes := ⟨true,true,false⟩

/-- Whether NAPI may be scheduled; `disabling` is a napi_disable that waits. -/
inductive NapiMode
  | disabled
  | enabled
  | disabling
deriving DecidableEq, Repr

/-- struct napi_struct, as the kernel documents it. -/
structure Napi where
  mode : NapiMode
  scheduled : Bool
  missed : Bool
deriving DecidableEq, Repr

/-- napi_schedule_prep, and __napi_schedule when it says yes: a context that is scheduled already
remembers the request. -/
def Napi.schedulePrep (n : Napi) : Napi × Bool :=
  if n.mode = .enabled then
    if n.scheduled then ({ n with missed := true },false) else ({ n with scheduled := true },true)
  else (n,false)

/-- napi_complete_done: a request that came in meanwhile schedules the context again. -/
def Napi.completeDone (n : Napi) : Napi × Bool :=
  if n.missed then ({ n with missed := false },false) else ({ n with scheduled := false },true)

/-- What the NAPI core does when a poll has used up its budget: it will poll again, unless the
context is being disabled. -/
def Napi.repoll (n : Napi) : Napi := if n.mode = .disabling then n.completeDone.1 else n

/-- Where edunic_poll is: not called; before the loop of edunic_clean_tx_irq; before it looks at
the queue's flag; before netif_wake_queue; before edunic_clean_rx_irq; in it; before
napi_complete_done. -/
inductive PollPc
  | idle
  | cleanTx (budget : ℤ)
  | flag (budget : ℤ)
  | wake (budget : ℤ)
  | cleanRx (budget : ℤ)
  | receive (budget : ℤ)
  | completeDone (workDone : ℕ)
deriving DecidableEq, Repr

def PollPc.receiving : PollPc → Bool
  | .receive _ => true
  | _ => false

/-- Where the interface is: in edunic_probe; not opened; in edunic_open, behind napi_enable and
before the call named; up; in edunic_stop, behind netif_stop_queue and before the call named;
in its napi_disable; stopped. `undoing` is the napi_disable of an edunic_open that fails. -/
inductive Iface
  | probing
  | down
  | setupInterrupts
  | undoing
  | hwStart
  | linkTimer
  | startQueue
  | up
  | hwStop
  | freeInterrupts
  | napiDisable
  | napiDisabling
  | carrierOff
  | stopped
deriving DecidableEq, Repr

/-- struct edunic_adapter and its registers, the NAPI context, and who is where. `unmasks` counts
the polls between napi_complete_done and their write to IMS; `unmasked` says that IMS has been
written since the last edunic_hw_stop, `woken` that netif_wake_queue has been called since the last
netif_stop_queue of edunic_stop. -/
structure Card where
  tx : Adapter
  rx : RxAdapter
  icr : Causes
  ims : Causes
  napi : Napi
  poll : PollPc
  unmasks : ℕ
  iface : Iface
  irqRequested : Bool
  linkUp : Bool
  carrier : Bool
  timerArmed : Bool
  unmasked : Bool
  woken : Bool

/-- What the worker loops back in a round: its copy of the frame. -/
def Adapter.frameCopy (a : Adapter) (w : TxWorker) (kmallocOk : Bool) : Option (List UInt8) :=
  let len := (a.txRing.desc w.head).length.toNat
  let buf := a.txRing.buf w.head
  if buf.dma ≠ 0 ∧ len ≠ 0 ∧ kmallocOk then some (((buf.skb.map SkBuff.data).getD []).take len)
  else none

namespace Card

/-- edunic_intr. -/
def intr (c : Card) : Card :=
  let read := { c with icr := .none }
  let reported := if c.icr.lsc then { read with carrier := c.linkUp } else read
  if c.icr.rx ∨ c.icr.tx then
    match c.napi.schedulePrep with
    | (napi,true) => { reported with napi, ims := c.ims.clear rxTx }
    | (napi,false) => { reported with napi }
  else reported

/-- edunic_link_timer_fn. -/
def linkTimerFn (c : Card) : Card :=
  intr { c with
    timerArmed := false
    linkUp := true
    icr := c.icr.set ⟨false,false,true⟩ }

/-- One round of the worker, with the frame it loops back. -/
def hwTxWorkerRound (c : Card) (w : TxWorker) (kmallocOk : Bool) : Card :=
  let sent := { c with tx := c.tx.hwTxWorkerRound w kmallocOk }
  match c.tx.frameCopy w kmallocOk with
  | none => sent
  | some frame =>
    { sent with
      rx := c.rx.hwDeliverRxFrame frame
      icr := if c.rx.rdh = c.rx.rdt then c.icr else c.icr.set ⟨true,false,false⟩ }

/-- The end of the worker. -/
def hwTxWorkerEnd (c : Card) (w : TxWorker) : Card :=
  let ended := { c with tx := c.tx.hwTxWorkerEnd w }
  if w.sentAny then intr { ended with icr := c.icr.set ⟨false,true,false⟩ } else ended

/-- The next step of edunic_poll, and of the NAPI core behind it. -/
def pollStep (c : Card) : Option Card :=
  match c.poll with
  | .idle => none
  | .cleanTx budget => do
    let (tx,i,packets,bytes) ← c.tx.cleanLoop ringSize c.tx.txRing.nextToClean 0 0
    let tx := tx.cleanedTo i
    if packets ≠ 0 then return { c with tx := tx.count packets bytes, poll := .flag budget }
    else return { c with tx, poll := .cleanRx budget }
  | .flag budget =>
    if c.tx.queueStopped ∧ txDescPerPkt ≤ c.tx.txRing.unused then
      some { c with poll := .wake budget }
    else some { c with poll := .cleanRx budget }
  | .wake budget =>
    some { c with
      tx := { c.tx with queueStopped := false }
      woken := true
      poll := .cleanRx budget }
  | .cleanRx budget =>
    (c.rx.rxStep (.clean budget)).map fun rx => { c with rx, poll := .receive budget }
  | .receive budget =>
    match c.rx.driver with
    | .idle workDone =>
      if budget ≤ workDone then some { c with napi := c.napi.repoll, poll := .idle }
      else some { c with poll := .completeDone workDone }
    | _ => none
  | .completeDone _ =>
    match c.napi.completeDone with
    | (napi,true) => some { c with napi, unmasks := c.unmasks+1, poll := .idle }
    | (napi,false) => some { c with napi, poll := .idle }

/-- The next step of edunic_open or edunic_stop; `ok` is what edunic_setup_interrupts answers. -/
def ndoStep (c : Card) (ok : Bool) : Option Card :=
  match c.iface with
  | .setupInterrupts =>
    if ok then some { c with irqRequested := true, iface := .hwStart }
    else some { c with napi := { c.napi with mode := .disabling }, iface := .undoing }
  | .undoing =>
    if c.napi.scheduled then none
    else some { c with napi := { c.napi with mode := .disabled }, iface := .down }
  | .hwStart => some { c with ims := c.ims.set .all, unmasked := true, iface := .linkTimer }
  | .linkTimer => some { c with timerArmed := true, iface := .startQueue }
  | .startQueue => some { c with tx := { c.tx with queueStopped := false }, iface := .up }
  | .hwStop => some { c with ims := c.ims.clear .all, unmasked := false, iface := .freeInterrupts }
  | .freeInterrupts => some { c with irqRequested := false, iface := .napiDisable }
  | .napiDisable =>
    some { c with napi := { c.napi with mode := .disabling }, iface := .napiDisabling }
  | .napiDisabling =>
    if c.napi.scheduled then none
    else some { c with napi := { c.napi with mode := .disabled }, iface := .carrierOff }
  | .carrierOff => some { c with carrier := false, iface := .stopped }
  | _ => none

end Card

/-- The steps of the driver's own receive code. -/
def RxLabel.driven : RxLabel → Bool
  | .harvest | .harvested | .refill _ _ | .announce => true
  | _ => false

/-- A step, with what its environment answers. -/
inductive CardLabel
  | register
  | ndoOpen
  | ndoStop
  | ndo (ok : Bool)
  | xmit (skb : SkBuff) (mapping : Option UInt64)
  | workerStart
  | workerRound (kmallocOk : Bool)
  | workerEnd
  | interrupt
  | linkTimer
  | napiPoll (budget : ℤ)
  | poll
  | receive (label : RxLabel)
  | unmask
deriving DecidableEq, Repr

namespace Card

/-- One step. The stack transmits while the interface is up. The receive code runs in a poll, and
in edunic_probe, which fails when it posts no buffer. -/
def step (c : Card) (label : CardLabel) : Option Card :=
  match label with
  | .register =>
    match c.rx.driver with
    | .idle _ => if c.iface = .probing then some { c with iface := .down } else none
    | _ => none
  | .ndoOpen =>
    if c.iface = .down ∨ c.iface = .stopped then
      some { c with napi := { c.napi with mode := .enabled }, iface := .setupInterrupts }
    else none
  | .ndoStop =>
    if c.iface = .up then
      some { c with tx := { c.tx with queueStopped := true }, woken := false, iface := .hwStop }
    else none
  | .ndo ok => c.ndoStep ok
  | .xmit skb mapping =>
    if c.iface = .up then some { c with tx := (c.tx.startXmit skb mapping).1 } else none
  | .workerStart =>
    if c.tx.workPending ∧ c.tx.txWorker = none then some { c with tx := c.tx.hwTxWorkerStart }
    else none
  | .workerRound kmallocOk =>
    match c.tx.txWorker with
    | some w => if w.head ≠ w.tail then some (c.hwTxWorkerRound w kmallocOk) else none
    | none => none
  | .workerEnd =>
    match c.tx.txWorker with
    | some w => if w.head = w.tail then some (c.hwTxWorkerEnd w) else none
    | none => none
  | .interrupt => if c.irqRequested then some c.intr else none
  | .linkTimer => if c.timerArmed then some c.linkTimerFn else none
  | .napiPoll budget =>
    if c.poll = .idle ∧ c.napi.scheduled then some { c with poll := .cleanTx budget } else none
  | .poll => c.pollStep
  | .receive label =>
    if label.driven ∧ (c.poll.receiving ∨ c.iface = .probing) then
      (c.rx.rxStep label).map fun rx => { c with rx }
    else none
  | .unmask =>
    if c.unmasks ≠ 0 then
      some { c with ims := c.ims.set rxTx, unmasked := true, unmasks := c.unmasks-1 }
    else none

end Card

/-- The card after edunic_hw_reset and edunic_hw_init_rings. -/
def probedCard (tdh tdt rdh rdt : ℕ) : Card where
  tx := probed emptyTxRing tdh tdt
  rx := probedRx emptyRxRing rdh rdt
  icr := .none
  ims := .none
  napi := ⟨.disabled,false,false⟩
  poll := .idle
  unmasks := 0
  iface := .probing
  irqRequested := false
  linkUp := false
  carrier := false
  timerArmed := false
  unmasked := false
  woken := false

/-- One card, from edunic_probe on. -/
def card : Machine Card CardLabel where
  init c := ∃ tdh tdt rdh rdt, c = probedCard tdh tdt rdh rdt
  step := Card.step

end NetLab.Edunic
