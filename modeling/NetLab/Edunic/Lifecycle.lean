import NetLab.Foundation.Inventory
import NetLab.Edunic.CardRuns

/-! The life of an edunic device: edunic_probe with its error path and edunic_remove of nic_pci.c
around the card. What the driver gets from the kernel is a resource; every step logs what it does
with them. The card's steps go on, also while edunic_remove runs and behind it, until something
stops them. -/
namespace NetLab.Edunic

/-- The transmit ring and the receive ring. -/
inductive Half
  | tx
  | rx
deriving DecidableEq, Repr

/-- What edunic_probe, edunic_open and what they call get, in this order: pci_enable_device,
pci_request_regions, pci_iomap, alloc_etherdev, the descriptors and the bookkeeping of both rings,
alloc_ordered_workqueue, netif_napi_add, register_netdev, pci_alloc_irq_vectors, request_irq. Then
the link timer while it is armed, the work item while it is queued or runs, and for each slot of a
ring the buffer in it and the mapping of that buffer. -/
inductive Resource
  | device
  | regions
  | mapping
  | netdev
  | txDesc
  | txBuf
  | rxDesc
  | rxBuf
  | workqueue
  | napi
  | registration
  | vectors
  | irq
  | linkTimer
  | work
  | skb (half : Half) (slot : ℕ)
  | dma (half : Half) (slot : ℕ)
deriving DecidableEq, Repr

namespace Resource

/-- What a resource is of use with only: the adapter lives in the net_device, the work and the
poll go to the registers and the rings, the interface calls both. A slot's buffer is known by the
bookkeeping, its mapping by the descriptor. -/
def needs : Resource → Finset Resource
  | .device => ∅
  | .regions => {.device}
  | .mapping => {.regions}
  | .netdev => {.device}
  | .txDesc | .txBuf | .rxDesc | .rxBuf => {.netdev}
  | .workqueue | .napi => {.netdev,.mapping,.txDesc,.txBuf,.rxDesc,.rxBuf}
  | .registration => {.workqueue,.napi}
  | .vectors => {.device}
  | .irq => {.vectors,.registration}
  | .linkTimer => {.netdev,.mapping}
  | .work => {.workqueue}
  | .skb .tx _ => {.txBuf}
  | .skb .rx _ => {.rxBuf}
  | .dma .tx k => {.device,.txDesc,.skb .tx k}
  | .dma .rx k => {.device,.rxDesc,.skb .rx k}

end Resource

abbrev Deeds : Type := List (Deed Resource)

def uses (rs : List Resource) : Deeds := rs.map Deed.use

/-- A buffer is mapped and stored in a slot. -/
def fillSlot (half : Half) (k : ℕ) : Deeds := [.acquire (.skb half k),.acquire (.dma half k)]

/-- A buffer that was to go to a slot cannot be mapped and is freed. -/
def passSlot (half : Half) (k : ℕ) : Deeds := [.acquire (.skb half k),.release (.skb half k)]

/-- The buffer of a slot is unmapped, and freed or handed to the stack. -/
def emptySlot (half : Half) (k : ℕ) : Deeds := [.release (.dma half k),.release (.skb half k)]

/-! ### The rings and the emulated device -/

/-- The body of the loop of edunic_free_tx_resources. -/
def freeTxSlot (ring : TxRing) (k : ℕ) : Deeds :=
  match (ring.buf k).skb with
  | none => []
  | some _ => emptySlot .tx k

/-- The body of the loop of edunic_free_rx_resources. -/
def freeRxSlot (ring : RxRing) (k : ℕ) : Deeds :=
  match (ring.buf k).skb with
  | none => []
  | some _ => emptySlot .rx k

/-- edunic_free_tx_resources. -/
def freeTxDeeds (ring : TxRing) : Deeds :=
  (List.range ring.count).flatMap (freeTxSlot ring) ++ [.release .txBuf,.release .txDesc]

/-- edunic_free_rx_resources. -/
def freeRxDeeds (ring : RxRing) : Deeds :=
  (List.range ring.count).flatMap (freeRxSlot ring) ++ [.release .rxBuf,.release .rxDesc]

/-- The work item is queued or runs. -/
def Adapter.working (a : Adapter) : Bool := a.workPending || a.txWorker.isSome

/-- hrtimer_cancel. -/
def Card.cancelTimerDeeds (c : Card) : Deeds :=
  .use .netdev :: if c.timerArmed then [.release .linkTimer] else []

/-- cancel_work_sync and destroy_workqueue. -/
def Card.destroyWorkDeeds (c : Card) : Deeds :=
  (if c.tx.working then [.release .work] else []) ++ [.release .workqueue]

/-- edunic_hw_emulation_uninit. -/
def Card.emulationUninit (c : Card) : Deeds := c.cancelTimerDeeds ++ c.destroyWorkDeeds

/-! ### edunic_probe -/

/-- What the calls of edunic_probe answer, and what the ring registers hold before. -/
structure ProbeAnswers where
  enable : Bool
  regions : Bool
  iomap : Bool
  mask64 : Bool
  mask32 : Bool
  etherdev : Bool
  txDesc : Bool
  txBuf : Bool
  rxDesc : Bool
  rxBuf : Bool
  tdh : ℕ
  tdt : ℕ
  rdh : ℕ
  rdt : ℕ

/-- edunic_setup_tx_resources; the Boolean says whether it returns 0. -/
def setupTxDeeds (descOk bufOk : Bool) : Deeds × Bool :=
  if descOk then
    if bufOk then ([.acquire .txDesc,.acquire .txBuf],true)
    else ([.acquire .txDesc,.release .txDesc],false)
  else ([],false)

/-- edunic_setup_rx_resources. -/
def setupRxDeeds (descOk bufOk : Bool) : Deeds × Bool :=
  if descOk then
    if bufOk then ([.acquire .rxDesc,.acquire .rxBuf],true)
    else ([.acquire .rxDesc,.release .rxDesc],false)
  else ([],false)

def errDisableDevice : Deeds := [.release .device]
def errReleaseRegions : Deeds := .release .regions :: errDisableDevice
def errIounmap : Deeds := .release .mapping :: errReleaseRegions
def errFreeNetdev : Deeds := .release .netdev :: errIounmap
def errFreeTx (tx : TxRing) : Deeds := freeTxDeeds tx ++ errFreeNetdev
def errFreeRx (c : Card) : Deeds := freeRxDeeds c.rx.rxRing ++ errFreeTx c.tx.txRing
def errNapiDel (c : Card) : Deeds := .release .napi :: c.emulationUninit ++ errFreeRx c

/-- edunic_probe up to its call of edunic_alloc_rx_buffers; the Boolean says whether it gets
there. -/
def probeRings (ans : ProbeAnswers) : Deeds × Bool :=
  if !ans.enable then ([],false)
  else
    let log : Deeds := [.acquire .device,.use .device]
    if !ans.regions then (log ++ errDisableDevice,false)
    else
      let log := log ++ [.acquire .regions]
      if !ans.iomap then (log ++ errReleaseRegions,false)
      else
        let log := log ++ [.acquire .mapping]
        if !ans.mask64 && !ans.mask32 then (log ++ errIounmap,false)
        else if !ans.etherdev then (log ++ errIounmap,false)
        else
          -- edunic_hw_reset and edunic_hw_set_mac write registers.
          let log := log ++ [.acquire .netdev,.use .netdev,.use .mapping]
          let tx := setupTxDeeds ans.txDesc ans.txBuf
          if !tx.2 then (log ++ tx.1 ++ errFreeNetdev,false)
          else
            let rx := setupRxDeeds ans.rxDesc ans.rxBuf
            if !rx.2 then (log ++ tx.1 ++ rx.1 ++ errFreeTx emptyTxRing,false)
            else (log ++ tx.1 ++ rx.1 ++ uses [.netdev,.mapping],true)

/-! ### What the card's steps touch -/

namespace Card

/-- edunic_intr: any receive or transmit cause makes it call napi_schedule_prep. -/
def intrDeeds (c : Card) : Deeds :=
  uses [.netdev,.mapping] ++ if c.icr.rx ∨ c.icr.tx then [.use .napi] else []

/-- The statements of edunic_open and edunic_stop; `vectors` is what pci_alloc_irq_vectors answers
when edunic_setup_interrupts fails. A timer that is armed already is armed anew. -/
def ndoDeeds (c : Card) (ok vectors : Bool) : Deeds :=
  match c.iface with
  | .setupInterrupts =>
    if ok then [.acquire .vectors,.acquire .irq]
    else if vectors then [.acquire .vectors,.release .vectors]
    else []
  | .undoing | .napiDisable | .napiDisabling => [.use .napi]
  | .hwStart | .hwStop => uses [.netdev,.mapping]
  | .linkTimer =>
    [.use .netdev,if c.timerArmed then .use .linkTimer else .acquire .linkTimer]
  | .startQueue | .carrierOff => [.use .netdev]
  | .freeInterrupts => [.release .irq,.release .vectors]
  | _ => []

/-- edunic_start_xmit. -/
def xmitDeeds (a : Adapter) (mapping : Option UInt64) : Deeds :=
  uses [.registration,.netdev] ++
    match (a.maybeStopTx txDescPerPkt).2,mapping with
    | true,_ => []
    | false,none => passSlot .tx a.txRing.nextToUse
    | false,some _ =>
      fillSlot .tx a.txRing.nextToUse ++ uses [.txBuf,.txDesc,.mapping,.workqueue] ++
        [if a.working then .use .work else .acquire .work]

/-- edunic_hw_deliver_rx_frame. -/
def deliverDeeds (a : RxAdapter) : Deeds :=
  uses [.netdev,.mapping] ++
    if a.rdh = a.rdt then [] else uses [.rxDesc,.rxBuf,.dma .rx a.rdh,.skb .rx a.rdh]

/-- One round of the worker: it syncs the mapping of a slot in use and copies the frame. -/
def workerRoundDeeds (c : Card) (w : TxWorker) (kmallocOk : Bool) : Deeds :=
  uses [.work,.netdev,.txDesc,.txBuf] ++
    (if (c.tx.txRing.buf w.head).dma ≠ 0 ∧ (c.tx.txRing.desc w.head).length.toNat ≠ 0 then
      [.use (.dma .tx w.head)]
    else []) ++
    match c.tx.frameCopy w kmallocOk with
    | none => []
    | some _ => .use (.skb .tx w.head) :: deliverDeeds c.rx

/-- The end of the worker. The work item stays queued if it has been kicked again. -/
def workerEndDeeds (c : Card) (w : TxWorker) : Deeds :=
  uses [.work,.netdev] ++
    (if w.sentAny then
      .use .mapping :: intrDeeds { c with
        tx := c.tx.hwTxWorkerEnd w
        icr := c.icr.set ⟨false,true,false⟩ }
    else []) ++
    if c.tx.workPending then [] else [.release .work]

/-- The loop of edunic_clean_tx_irq from slot `i` on. -/
def cleanTxDeeds : ℕ → Adapter → ℕ → Deeds
  | 0,_,_ => []
  | fuel+1,a,i =>
    if i ≠ a.txRing.nextToUse ∧ (a.txRing.desc i).done then
      emptySlot .tx i ++ cleanTxDeeds fuel (a.reclaim i) (next i)
    else []

/-- The next step of edunic_poll. -/
def pollDeeds (c : Card) : Deeds :=
  uses [.napi,.netdev,.mapping,.txDesc,.txBuf,.rxDesc,.rxBuf] ++
    match c.poll with
    | .cleanTx _ => cleanTxDeeds ringSize c.tx c.tx.txRing.nextToClean
    | _ => []

/-- The rounds of the two loops of the receive code. -/
def receiveDeeds (a : RxAdapter) : RxLabel → Deeds
  | .harvest =>
    match a.driver with
    | .harvesting i _ _ _ => emptySlot .rx i
    | _ => []
  | .refill skb mapping =>
    match a.driver,skb,mapping with
    | .refilling i _ _ _,some _,none => passSlot .rx i
    | .refilling i _ _ _,some _,some _ => fillSlot .rx i
    | _,_,_ => []
  | _ => []

/-- What a step touches. -/
def deeds (c : Card) (label : CardLabel) (vectors : Bool) : Deeds :=
  match label with
  | .register => []
  | .ndoOpen => [.use .napi]
  | .ndoStop => [.use .registration,.use .netdev]
  | .ndo ok => c.ndoDeeds ok vectors
  | .xmit _ mapping => xmitDeeds c.tx mapping
  | .workerStart => uses [.work,.netdev,.mapping]
  | .workerRound kmallocOk =>
    match c.tx.txWorker with
    | none => []
    | some w => c.workerRoundDeeds w kmallocOk
  | .workerEnd =>
    match c.tx.txWorker with
    | none => []
    | some w => c.workerEndDeeds w
  | .interrupt => .use .irq :: c.intrDeeds
  | .linkTimer =>
    uses [.linkTimer,.netdev,.mapping] ++
      intrDeeds { c with
        timerArmed := false
        linkUp := true
        icr := c.icr.set ⟨false,false,true⟩ } ++ [.release .linkTimer]
  | .napiPoll _ => [.use .napi]
  | .poll => c.pollDeeds
  | .receive label =>
    uses [.netdev,.mapping,.rxDesc,.rxBuf] ++ (if c.iface = .probing then [] else [.use .napi]) ++
      receiveDeeds c.rx label
  | .unmask => uses [.netdev,.mapping]

/-- hrtimer_cancel. -/
def cancelTimer (c : Card) : Card := { c with timerArmed := false }

/-- cancel_work_sync, edunic_free_rx_resources and edunic_free_tx_resources. -/
def freeRings (c : Card) : Card :=
  { c with
    tx := { c.tx with workPending := false }.freeTxResources
    rx := c.rx.freeRxResources }

end Card

/-! ### The device -/

/-- Where edunic_probe and edunic_remove are: before edunic_probe; in it, behind the call of
edunic_alloc_rx_buffers; behind it; in edunic_remove behind unregister_netdev, behind
edunic_napi_del, behind hrtimer_cancel. -/
inductive Stage
  | unbound
  | probing
  | bound
  | unregistered
  | napiDeleted
  | timerCancelled
deriving DecidableEq, Repr

/-- A PCI device, the card of its last edunic_probe that got that far, and the log. -/
structure Device where
  stage : Stage
  card : Option Card
  log : Deeds

/-- A step of the device. unregister_netdev closes an interface that is up, which is done by
steps of the card before it. -/
inductive DeviceLabel
  | probe (ans : ProbeAnswers)
  | finishProbe (workqueue register : Bool)
  | card (label : CardLabel) (vectors : Bool)
  | unregisterNetdev
  | napiDel
  | cancelTimer
  | teardown

namespace Device

/-- The steps of the card that somebody may take: the stack calls a registered interface. The
worker, the timer, the interrupt and the polls ask nobody, not even whether the device is bound. -/
def admits (d : Device) : CardLabel → Bool
  | .register => false
  | .ndoOpen | .ndoStop | .xmit _ _ => d.stage = .bound
  | _ => true

def note (d : Device) (stage : Stage) (card : Option Card) (deeds : Deeds) : Device :=
  ⟨stage,card,d.log ++ deeds⟩

/-- edunic_probe behind edunic_alloc_rx_buffers. -/
def finishProbe (d : Device) (c : Card) (workqueue register : Bool) : Option Device :=
  match c.rx.driver with
  | .failed => some (d.note .unbound (some c.freeRings) (errFreeRx c))
  | .idle _ =>
    if !workqueue then some (d.note .unbound (some c.freeRings) (errFreeRx c))
    else
      let log : Deeds := [.acquire .workqueue,.acquire .napi]
      if !register then
        some (d.note .unbound (some c.cancelTimer.freeRings) (log ++ errNapiDel c))
      else (c.step .register).map fun c => d.note .bound (some c) (log ++ [.acquire .registration])
  | _ => none

/-- The steps of edunic_remove. unregister_netdev returns when the interface is down;
netif_napi_del waits for polls that still run; cancel_work_sync waits for the worker. -/
def removeStep (d : Device) (c : Card) : DeviceLabel → Option Device
  | .unregisterNetdev =>
    if d.stage = .bound ∧ (c.iface = .down ∨ c.iface = .stopped) then
      some (d.note .unregistered (some c) [.use .netdev,.release .registration])
    else none
  | .napiDel =>
    if d.stage = .unregistered ∧ c.poll = .idle ∧ c.unmasks = 0 then
      some (d.note .napiDeleted (some c) [.release .napi])
    else none
  | .cancelTimer =>
    if d.stage = .napiDeleted then
      some (d.note .timerCancelled (some c.cancelTimer) c.cancelTimerDeeds)
    else none
  | .teardown =>
    if d.stage = .timerCancelled ∧ c.tx.txWorker = none then
      some (d.note .unbound (some c.freeRings)
        (c.destroyWorkDeeds ++ freeRxDeeds c.rx.rxRing ++ freeTxDeeds c.tx.txRing ++
          [.release .mapping,.release .regions,.release .netdev,.release .device]))
    else none
  | _ => none

def step (d : Device) (label : DeviceLabel) : Option Device :=
  match label,d.card with
  | .probe ans,card =>
    if d.stage = .unbound then
      match probeRings ans with
      | (deeds,true) =>
        some (d.note .probing (some (probedCard ans.tdh ans.tdt ans.rdh ans.rdt)) deeds)
      | (deeds,false) => some (d.note .unbound card deeds)
    else none
  | .finishProbe workqueue register,some c =>
    if d.stage = .probing then d.finishProbe c workqueue register else none
  | .card label vectors,some c =>
    if d.admits label then
      (c.step label).map fun c' => d.note d.stage (some c') (c.deeds label vectors)
    else none
  | label,some c => d.removeStep c label
  | _,none => none

end Device

/-- One device, over any number of times it is bound and unbound. -/
def device : Machine Device DeviceLabel where
  init d := d = ⟨.unbound,none,[]⟩
  step := Device.step

end NetLab.Edunic
