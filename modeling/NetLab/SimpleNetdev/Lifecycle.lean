import NetLab.Foundation.Inventory
import NetLab.SimpleNetdev.RxPath

/-! The life of a simple_netdev device: my_pci_probe with its error path, my_open, my_stop and
my_pci_remove around the transmit ring and the receive ring. The interrupt line may be shared, so
my_irq_handler may run from request_irq to free_irq. -/
namespace NetLab.SimpleNetdev

/-- What my_pci_probe gets: pci_enable_device, pci_request_regions, alloc_etherdev, pci_iomap,
netif_napi_add, the two descriptor rings, a buffer and its mapping for each receive descriptor,
request_irq, register_netdev. -/
inductive Resource
  | device
  | regions
  | netdev
  | mmio
  | napi
  | rxRing
  | txRing
  | rxBuffer (i : ℕ)
  | rxMapping (i : ℕ)
  | irq
  | registration
deriving DecidableEq, Repr

namespace Resource

/-- What a resource is of use with only: the private data live in the net_device, a buffer is
known by its descriptor, a mapping is one of a buffer, my_irq_handler goes to the registers, the
transmit ring and NAPI. -/
def needs : Resource → Finset Resource
  | .device => ∅
  | .regions => {.device}
  | .netdev => {.device}
  | .mmio => {.regions,.netdev}
  | .napi | .rxRing | .txRing => {.netdev}
  | .rxBuffer _ => {.rxRing}
  | .rxMapping i => {.rxBuffer i}
  | .irq => {.mmio,.napi,.txRing}
  | .registration => {.mmio,.napi,.txRing,.rxRing,.irq}

end Resource

abbrev Deeds : Type := List (Deed Resource)

def uses (rs : List Resource) : Deeds := rs.map Deed.use

/-! ### The receive buffers -/

/-- The error path of my_alloc_rx_buffers, for the descriptors below `i`. -/
def unwindRxDeeds : ℕ → Deeds
  | 0 => []
  | i+1 => [.release (.rxMapping i),.release (.rxBuffer i)] ++ unwindRxDeeds i

/-- The loop of my_alloc_rx_buffers with `n` descriptors to go. -/
def allocRxDeeds (answers : ℕ → RxAlloc) : ℕ → ℕ → Deeds
  | 0,_ => []
  | n+1,i =>
    match (answers i).buf with
    | none => unwindRxDeeds i
    | some _ =>
      match (answers i).mapping with
      | none => [.acquire (.rxBuffer i),.release (.rxBuffer i)] ++ unwindRxDeeds i
      | some _ =>
        [.acquire (.rxBuffer i),.acquire (.rxMapping i)] ++ allocRxDeeds answers n (i+1)

/-- The body of the loop of my_free_rx_buffers. -/
def freeRxSlot (ring : ℕ → RxDesc) (i : ℕ) : Deeds :=
  match (ring i).buf with
  | none => []
  | some _ => [.release (.rxMapping i),.release (.rxBuffer i)]

/-- my_free_rx_buffers. -/
def freeRxBuffers (ring : ℕ → RxDesc) : Deeds := (List.range rxRingSize).flatMap (freeRxSlot ring)

/-! ### my_pci_probe -/

/-- What the calls of my_pci_probe answer up to request_irq, and what REG_TX_TAIL and the device
hold before. -/
structure ProbeAnswers where
  enable : Bool
  regions : Bool
  mask64 : Bool
  mask32 : Bool
  etherdev : Bool
  iomap : Bool
  rxRing : Bool
  txRing : Bool
  rxBuffers : ℕ → RxAlloc
  irq : Bool
  txTail : ℕ
  rxTail : ℕ
  irqMask : UInt32
  buffer : ℕ → ℕ → UInt8

def errDisableDevice : Deeds := [.release .device]
def errReleaseRegions : Deeds := .release .regions :: errDisableDevice
def errFreeNetdev : Deeds := .release .netdev :: errReleaseRegions
def errNapi : Deeds := [.release .napi,.release .mmio] ++ errFreeNetdev
def errRxDesc : Deeds := .release .rxRing :: errNapi
def errTxDesc : Deeds := .release .txRing :: errRxDesc
def errRxBuffers (ring : ℕ → RxDesc) : Deeds := freeRxBuffers ring ++ errTxDesc
def errIrq (ring : ℕ → RxDesc) : Deeds := [.use .mmio,.release .irq] ++ errRxBuffers ring

/-- What has been got when my_alloc_rx_desc_ring is called. -/
def uptoNapi : Deeds :=
  [.acquire .device,.use .device,.acquire .regions,.acquire .netdev,.acquire .mmio,.acquire .napi]

/-- my_pci_probe from my_alloc_rx_buffers to request_irq, with all it has done. -/
def probeBuffers (ans : ProbeAnswers) : Deeds × Option (ℕ → RxDesc) :=
  let log := uptoNapi ++ [.acquire .rxRing,.acquire .txRing] ++
    allocRxDeeds ans.rxBuffers rxRingSize 0
  match allocRxBuffers ans.rxBuffers with
  | .error _ => (log ++ errTxDesc,none)
  | .ok ring =>
    if !ans.irq then (log ++ errRxBuffers ring,none)
    else (log ++ [.acquire .irq],some ring)

/-- my_pci_probe up to request_irq, with the receive ring if it gets there. -/
def probeRings (ans : ProbeAnswers) : Deeds × Option (ℕ → RxDesc) :=
  if !ans.enable then ([],none)
  else if !ans.regions then ([.acquire .device,.use .device] ++ errDisableDevice,none)
  else if !ans.mask64 && !ans.mask32 then
    ([.acquire .device,.use .device,.acquire .regions] ++ errReleaseRegions,none)
  else if !ans.etherdev then
    ([.acquire .device,.use .device,.acquire .regions] ++ errReleaseRegions,none)
  else if !ans.iomap then
    ([.acquire .device,.use .device,.acquire .regions,.acquire .netdev] ++ errFreeNetdev,none)
  else if !ans.rxRing then (uptoNapi ++ errNapi,none)
  else if !ans.txRing then (uptoNapi ++ [.acquire .rxRing] ++ errRxDesc,none)
  else probeBuffers ans

/-! ### The device -/

/-- Where my_pci_probe and my_pci_remove are: before my_pci_probe; in it, behind request_irq;
behind it; in my_pci_remove behind unregister_netdev, behind free_irq. -/
inductive Stage
  | unbound
  | probing
  | bound
  | unregistered
  | irqFreed
deriving DecidableEq, Repr

/-- The interface: down; up; in my_stop before napi_disable. -/
inductive Iface
  | down
  | up
  | stopping
deriving DecidableEq, Repr

/-- A PCI device with its two rings, the interface and the log. -/
structure Device where
  stage : Stage
  iface : Iface
  tx : Priv
  rx : RxPoll
  log : Deeds

/-- A step of the device: the driver's calls, a read of the causes that are not the device's, and
the steps of the rings. -/
inductive DeviceLabel
  | probe (ans : ProbeAnswers)
  | finishProbe (register : Bool)
  | open
  | stop
  | napiDisable
  | spurious
  | scheduleNapi
  | tx (label : TxLabel)
  | rx (label : RxLabel)
  | unregisterNetdev
  | freeIrq
  | teardown

/-- Between request_irq and free_irq. -/
def Stage.listening : Stage → Bool
  | .probing | .bound | .unregistered => true
  | _ => false

namespace Device

def note (d : Device) (deeds : Deeds) : Device := { d with log := d.log ++ deeds }

/-- The stack transmits while the interface is up, my_irq_handler cleans while the interrupt is
requested. -/
def admitsTx (d : Device) : TxLabel → Bool
  | .xmit _ _ => d.iface = .up
  | .clean => d.stage.listening
  | .complete _ => d.stage ≠ .unbound
  | .remove => false

/-- NAPI calls my_poll between napi_enable and napi_disable, which waits for it. A my_poll that has
been called goes on, whatever becomes of the device meanwhile. -/
def admitsRx (d : Device) : RxLabel → Bool
  | .call _ => d.iface ≠ .down
  | .poll _ => true
  | .fill _ | .deliver => d.stage ≠ .unbound

def txDeeds : TxLabel → Deeds
  | .xmit _ _ => uses [.registration,.netdev,.txRing,.mmio]
  | .clean => uses [.irq,.netdev,.mmio,.txRing]
  | _ => []

/-- my_poll takes packets from the buffer of a descriptor. -/
def rxDeeds (d : Device) : RxLabel → Deeds
  | .call _ => uses [.napi,.netdev]
  | .poll _ =>
    uses [.napi,.netdev,.rxRing,.mmio] ++
      match d.rx.pc with
      | .take _ _ => uses [.rxMapping d.rx.rxHead,.rxBuffer d.rx.rxHead]
      | .refill _ _ => uses [.rxMapping d.rx.rxHead]
      | _ => []
  | _ => []

/-- my_free_rx_buffers clears the pointers it frees. -/
def dropRx (rx : RxPoll) : RxPoll :=
  { rx with rxRing := fun i => if i < rxRingSize then { rx.rxRing i with buf := none }
      else rx.rxRing i }

/-- The two steps of my_pci_remove behind unregister_netdev, and unregister_netdev itself, which
closes an interface that is up by steps of its own before it. -/
def removeStep (d : Device) : DeviceLabel → Option Device
  | .unregisterNetdev =>
    if d.stage = .bound ∧ d.iface = .down then
      some { d with
        stage := .unregistered
        rx := { d.rx with irqMask := 0 }
        log := d.log ++ [.use .netdev,.release .registration,.use .mmio] }
    else none
  | .freeIrq =>
    if d.stage = .unregistered then
      some { d with stage := .irqFreed, log := d.log ++ [.release .irq] }
    else none
  | .teardown =>
    if d.stage = .irqFreed then
      some { d with
        stage := .unbound
        tx := d.tx.freePendingTx.freeDescRings
        rx := dropRx d.rx
        log := d.log ++ ([.release .napi,.use .txRing] ++ freeRxBuffers d.rx.rxRing ++
          [.release .rxRing,.release .txRing,.release .mmio,.release .netdev,.release .regions,
            .release .device]) }
    else none
  | _ => none

/-- my_open, my_stop and the calls of my_irq_handler that do not clean. -/
def ndoStep (d : Device) : DeviceLabel → Option Device
  | .open =>
    if d.stage = .bound ∧ d.iface = .down then
      some { d with
        iface := .up
        tx := { d.tx with queueStopped := false }
        rx := { d.rx with irqMask := irqRx ||| irqTx }
        log := d.log ++ uses [.registration,.napi,.mmio,.netdev] }
    else none
  | .stop =>
    if d.iface = .up then
      some { d with
        iface := .stopping
        tx := { d.tx with queueStopped := true }
        rx := { d.rx with irqMask := 0 }
        log := d.log ++ uses [.registration,.netdev,.mmio] }
    else none
  | .napiDisable =>
    if d.iface = .stopping ∧ d.rx.pc = .idle then
      some { d with iface := .down, log := d.log ++ [.use .napi] }
    else none
  | .spurious =>
    if d.stage.listening then some (d.note (uses [.irq,.netdev,.mmio])) else none
  | .scheduleNapi =>
    if d.stage.listening then
      some { d with
        rx := { d.rx with irqMask := irqTx }
        log := d.log ++ uses [.irq,.netdev,.mmio,.napi] }
    else none
  | _ => none

def step (d : Device) (label : DeviceLabel) : Option Device :=
  match label with
  | .probe ans =>
    if d.stage = .unbound then
      match probeRings ans with
      | (deeds,none) => some (d.note deeds)
      | (deeds,some ring) =>
        some {
          stage := .probing
          iface := .down
          tx := Priv.ringReady ans.txTail
          rx := ⟨ring,0,ans.rxTail,ans.irqMask,ans.buffer,.idle,0,none,[]⟩
          log := d.log ++ deeds }
    else none
  | .finishProbe register =>
    if d.stage = .probing then
      -- my_hw_init writes the registers, with no interrupt enabled.
      let tx := d.tx.ringDoorbell
      let rx := { d.rx with rxTail := d.rx.rxHead, irqMask := 0 }
      if register then
        some { d with
          stage := .bound, tx, rx, log := d.log ++ [.use .mmio,.acquire .registration] }
      else
        some { d with
          stage := .unbound
          tx := tx.freeDescRings
          rx := dropRx rx
          log := d.log ++ ([.use .mmio] ++ errIrq rx.rxRing) }
    else none
  | .tx label =>
    if d.admitsTx label then
      (d.tx.txStep label).map fun tx => { d with tx, log := d.log ++ txDeeds label }
    else none
  | .rx label =>
    if d.admitsRx label then
      (d.rx.step label).map fun rx => { d with rx, log := d.log ++ d.rxDeeds label }
    else none
  | .open | .stop | .napiDisable | .spurious | .scheduleNapi => d.ndoStep label
  | .unregisterNetdev | .freeIrq | .teardown => d.removeStep label

end Device

/-- One device, over any number of times it is bound and unbound. -/
def device : Machine Device DeviceLabel where
  init d := d.stage = .unbound ∧ d.iface = .down ∧ d.log = [] ∧ d.rx.pc = .idle ∧
    d.tx = Priv.fresh d.tx.txTail ∧ ∀ i, (d.rx.rxRing i).buf = none
  step := Device.step

end NetLab.SimpleNetdev
