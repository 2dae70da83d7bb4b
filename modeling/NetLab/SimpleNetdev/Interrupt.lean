import Mathlib
import NetLab.Foundation.Machine
import NetLab.SimpleNetdev.TxPath

/-! The completion interrupt of simple_netdev. The device sets IRQ_TX whenever it completes a
descriptor; my_irq_handler reads the causes, cleans, and writes back what it has read, which
clears it. The handler's register accesses and the cleaning of each descriptor are steps of
their own. -/
namespace NetLab.SimpleNetdev

/-- IRQ_RX. -/
def irqRx : UInt32 := 1

/-- IRQ_TX. -/
def irqTx : UInt32 := 2

def hasRx (status : UInt32) : Bool := status &&& irqRx != 0
def hasTx (status : UInt32) : Bool := status &&& irqTx != 0

/-- Where my_irq_handler is: before REG_IRQ_STATUS is read, before REG_IRQ_MASK is written,
before napi_schedule, in the loop of my_tx_clean, at the end of my_tx_clean, before
REG_IRQ_STATUS is written. -/
inductive HandlerPc
  | idle
  | read
  | mask (status : UInt32)
  | schedule (status : UInt32)
  | txClean (status : UInt32)
  | txWake (status : UInt32)
  | ack (status : UInt32)
deriving DecidableEq, Repr

/-- The device with its interrupt registers, and the CPU the handler runs on. -/
structure Irq where
  priv : Priv
  irqStatus : UInt32
  irqMask : UInt32
  napiScheduled : Bool
  handler : HandlerPc

/-- Where my_irq_handler goes on when the RX causes are dealt with. -/
def afterRx (status : UInt32) : HandlerPc := if hasTx status then .txClean status else .ack status

namespace Irq

/-- The next step of my_irq_handler. -/
def handlerStep (s : Irq) : Option Irq :=
  match s.handler with
  | .idle => none
  | .read =>
    let status := s.irqStatus
    if status = 0 then some { s with handler := .idle }
    else some { s with handler := if hasRx status then .mask status else afterRx status }
  | .mask status => some { s with irqMask := irqTx, handler := .schedule status }
  | .schedule status => some { s with napiScheduled := true, handler := afterRx status }
  | .txClean status =>
    if s.priv.txClean ≠ s.priv.txHead ∧ s.priv.reclaimable then
      some { s with priv := s.priv.reclaim.advanceClean }
    else some { s with handler := .txWake status }
  | .txWake status => some { s with priv := s.priv.wake, handler := .ack status }
  | .ack status => some { s with irqStatus := s.irqStatus &&& ~~~status, handler := .idle }

end Irq

inductive IrqLabel
  | xmit (skb : SkBuff) (mapping : Option UInt64)
  | complete (i : ℕ)
  | receive
  | callHandler
  | handler
deriving DecidableEq, Repr

/-- One step: a whole my_start_xmit on another CPU, a completion or a received frame at the
device, or a step of the handler, which is not called while it runs. -/
def Irq.step (s : Irq) (label : IrqLabel) : Option Irq :=
  match label with
  | .xmit skb mapping => some { s with priv := (s.priv.startXmit skb mapping).1 }
  | .complete i =>
    if i < txRingSize ∧ (s.priv.txRing i).ownedByHw then
      some { s with priv := s.priv.complete i, irqStatus := s.irqStatus ||| irqTx }
    else none
  | .receive => some { s with irqStatus := s.irqStatus ||| irqRx }
  | .callHandler => if s.handler = .idle then some { s with handler := .read } else none
  | .handler => s.handlerStep

/-- The device and its handler, from the allocation of the ring on. -/
def irq : Machine Irq IrqLabel where
  init s := ∃ txTail, (Priv.fresh txTail).allocTxDescRing true = some s.priv ∧ s.handler = .idle
  step := Irq.step

/-! ### The status register -/

theorem hasTx_iff (status : UInt32) : hasTx status = status.toBitVec.getLsbD 1 := by
  have hone : (2 : BitVec 32) = BitVec.twoPow 32 1 := by decide
  have hand : (status &&& irqTx).toBitVec = status.toBitVec &&& BitVec.twoPow 32 1 := by
    rw [← hone]
    rfl
  have hzero : (status &&& irqTx = 0) ↔ (status &&& irqTx).toBitVec = 0#32 := by
    rw [← UInt32.toBitVec_inj]
    rfl
  unfold hasTx
  rw [Bool.eq_iff_iff,bne_iff_ne,ne_eq,hzero,hand,BitVec.and_twoPow]
  cases status.toBitVec.getLsbD 1 <;> decide

@[simp] theorem hasTx_raise (status : UInt32) : hasTx (status ||| irqTx) = true := by
  rw [hasTx_iff,UInt32.toBitVec_or,BitVec.getLsbD_or]
  simp [irqTx]

@[simp] theorem hasTx_receive (status : UInt32) : hasTx (status ||| irqRx) = hasTx status := by
  rw [hasTx_iff,hasTx_iff,UInt32.toBitVec_or,BitVec.getLsbD_or]
  simp [irqRx]

/-- Writing 1 clears. -/
@[simp] theorem hasTx_clear (status written : UInt32) :
    hasTx (status &&& ~~~written) = (hasTx status && !hasTx written) := by
  rw [hasTx_iff,hasTx_iff,hasTx_iff,UInt32.toBitVec_and,BitVec.getLsbD_and]
  simp

/-! ### Completions and acknowledgements -/

/-- The descriptor at `tx_clean` is done and not yet reclaimed. -/
def FrontDone (p : Priv) : Prop := p.txClean ≠ p.txHead ∧ (p.txRing p.txClean).done = true

instance (p : Priv) : Decidable (FrontDone p) := inferInstanceAs (Decidable (_ ∧ _))

/-- my_start_xmit hands over descriptors that are not done. -/
theorem FrontDone.of_startXmit {p : Priv} {skb : SkBuff} {mapping : Option UInt64}
    (h : FrontDone (p.startXmit skb mapping).1) : FrontDone p := by
  unfold Priv.startXmit at h
  by_cases hfull : p.txRingFull = true
  · rw [if_pos hfull] at h
    exact h
  · rw [if_neg hfull] at h
    have hat : ∀ {desc : TxDesc}, p.txClean ≠ p.txHead →
        (Function.update p.txRing p.txHead desc p.txClean).done = true →
        (p.txRing p.txClean).done = true := by
      intro desc hne hdone
      rwa [Function.update_of_ne hne] at hdone
    cases mapping with
    | none => exact ⟨h.1,hat h.1 h.2⟩
    | some dma =>
      have hdone := h.2
      change (Function.update p.txRing p.txHead _ p.txClean).done = true at hdone
      by_cases he : p.txClean = p.txHead
      · rw [he,Function.update_self] at hdone
        contradiction
      · exact ⟨he,hat he hdone⟩

namespace Irq

/-- The next step of my_irq_handler writes a status with IRQ_TX back to REG_IRQ_STATUS. -/
def acks (s : Irq) : Bool :=
  match s.handler with
  | .ack status => hasTx status
  | _ => false

/-- The handler acknowledges in time: when it acknowledges IRQ_TX, no completion of the
descriptor at `tx_clean` has come in since the loop of my_tx_clean has left it. -/
def acksInTime (s : Irq) (label : IrqLabel) : Prop :=
  label = .handler → s.acks = true → ¬ FrontDone s.priv

instance (s : Irq) (label : IrqLabel) : Decidable (s.acksInTime label) :=
  inferInstanceAs (Decidable (_ → _ → _))

end Irq

/-- A handler that has read IRQ_TX and not got past my_tx_clean's loop. -/
def HandlerPc.cleans : HandlerPc → Bool
  | .mask status | .schedule status => hasTx status
  | .txClean _ => true
  | _ => false

/-- No completion is lost: as long as one waits to be reclaimed IRQ_TX is set, and so it is
until the handler that has read it acknowledges it. -/
structure Pending (s : Irq) : Prop where
  front : FrontDone s.priv → hasTx s.irqStatus = true
  reading : s.handler.cleans = true → hasTx s.irqStatus = true

variable {s t : Irq}

theorem afterRx_cleans {status : UInt32} (h : (afterRx status).cleans = true) :
    hasTx status = true := by
  unfold afterRx at h
  by_cases htx : hasTx status = true
  · exact htx
  · simp [htx,HandlerPc.cleans] at h

theorem handlerStep_pending (h : Pending s) (hok : s.acksInTime .handler)
    (hs : s.handlerStep = some t) : Pending t := by
  have hread := h.reading
  have htime := hok rfl
  unfold Irq.acks at htime
  unfold Irq.handlerStep at hs
  cases hpc : s.handler with
  | idle => simp [hpc] at hs
  | read =>
    rw [hpc] at hs
    by_cases hzero : s.irqStatus = 0
    · simp only [hzero,if_true] at hs
      obtain rfl := Option.some.inj hs
      refine ⟨fun hfront => ?_,fun hc => by simp [HandlerPc.cleans] at hc⟩
      have htx := h.front hfront
      rwa [hzero] at htx
    · simp only [hzero,if_false] at hs
      obtain rfl := Option.some.inj hs
      refine ⟨h.front,fun hc => ?_⟩
      cases hrx : hasRx s.irqStatus with
      | true => simpa [hrx,HandlerPc.cleans] using hc
      | false =>
        simp only [hrx] at hc
        exact afterRx_cleans hc
  | mask status =>
    rw [hpc] at hs hread
    obtain rfl := Option.some.inj hs
    exact ⟨h.front,hread⟩
  | schedule status =>
    rw [hpc] at hs hread
    obtain rfl := Option.some.inj hs
    exact ⟨h.front,fun hc => hread (afterRx_cleans hc)⟩
  | txClean status =>
    rw [hpc] at hs hread
    dsimp only at hs
    by_cases hgo : s.priv.txClean ≠ s.priv.txHead ∧ s.priv.reclaimable = true
    · rw [if_pos hgo] at hs
      obtain rfl := Option.some.inj hs
      exact ⟨fun _ => hread rfl,fun _ => hread rfl⟩
    · rw [if_neg hgo] at hs
      obtain rfl := Option.some.inj hs
      exact ⟨h.front,fun _ => hread rfl⟩
  | txWake status =>
    rw [hpc] at hs
    obtain rfl := Option.some.inj hs
    refine ⟨fun hfront => h.front ?_,fun hc => by simp [HandlerPc.cleans] at hc⟩
    unfold Priv.wake at hfront
    by_cases hw : (s.priv.queueStopped && !s.priv.txRingFull) = true
    · rw [if_pos hw] at hfront
      exact hfront
    · rw [if_neg hw] at hfront
      exact hfront
  | ack status =>
    rw [hpc] at hs htime
    obtain rfl := Option.some.inj hs
    refine ⟨fun hfront => ?_,fun hc => by simp [HandlerPc.cleans] at hc⟩
    have htx := h.front hfront
    cases hw : hasTx status with
    | true => exact absurd hfront (htime hw)
    | false => simp [htx,hw]

theorem irqStep_pending {label : IrqLabel} (h : Pending s) (hok : s.acksInTime label)
    (hs : irq.step s label = some t) : Pending t := by
  cases label with
  | xmit skb mapping =>
    obtain rfl := Option.some.inj hs
    exact ⟨fun hfront => h.front hfront.of_startXmit,h.reading⟩
  | complete i =>
    obtain ⟨-,rfl⟩ := guarded_eq_some.mp hs
    exact ⟨fun _ => hasTx_raise _,fun _ => hasTx_raise _⟩
  | receive =>
    obtain rfl := Option.some.inj hs
    constructor <;> rw [hasTx_receive]
    · exact h.front
    · exact h.reading
  | callHandler =>
    obtain ⟨-,rfl⟩ := guarded_eq_some.mp hs
    exact ⟨h.front,fun hc => by simp [HandlerPc.cleans] at hc⟩
  | handler => exact handlerStep_pending h hok hs

theorem irq_pending (h : irq.ReachableUnder Irq.acksInTime s) : Pending s := by
  refine h.invariant ?_ fun s label t _ hi hok hs => irqStep_pending hi hok hs
  rintro ⟨p,irqStatus,irqMask,napi,handler⟩ ⟨txTail,hp,rfl⟩
  obtain rfl := Option.some.inj hp
  exact ⟨fun hfront => absurd rfl hfront.1,fun hc => by simp [HandlerPc.cleans] at hc⟩

/-- An acknowledgement that is not in time leaves a completed descriptor with no cause set and
the handler gone. -/
theorem late_ack {label : IrqLabel} (hlate : ¬ s.acksInTime label)
    (hs : irq.step s label = some t) :
    t.handler = .idle ∧ FrontDone t.priv ∧ hasTx t.irqStatus = false := by
  unfold Irq.acksInTime Irq.acks at hlate
  push Not at hlate
  obtain ⟨rfl,hacks,hfront⟩ := hlate
  change s.handlerStep = some t at hs
  unfold Irq.handlerStep at hs
  cases hpc : s.handler with
  | ack status =>
    rw [hpc] at hs hacks
    obtain rfl := Option.some.inj hs
    exact ⟨rfl,hfront,by simp [show hasTx status = true from hacks]⟩
  | idle => simp [hpc] at hacks
  | read => simp [hpc] at hacks
  | mask _ => simp [hpc] at hacks
  | schedule _ => simp [hpc] at hacks
  | txClean _ => simp [hpc] at hacks
  | txWake _ => simp [hpc] at hacks

/-! ### Whole calls -/

/-- The handler's steps through my_tx_clean, in a row, are the function my_tx_clean. -/
theorem handler_cleanTx {p q : Priv} {fuel : ℕ} (status irqStatus irqMask : UInt32) (napi : Bool)
    (h : p.cleanLoop fuel = some q) :
    ∃ n, irq.run (List.replicate n .handler) ⟨p,irqStatus,irqMask,napi,.txClean status⟩ =
      some ⟨q.wake,irqStatus,irqMask,napi,.ack status⟩ := by
  induction fuel generalizing p with
  | zero => contradiction
  | succ fuel ih =>
    rw [Priv.cleanLoop] at h
    by_cases hgo : p.txClean ≠ p.txHead ∧ p.reclaimable = true
    · rw [if_pos hgo] at h
      obtain ⟨n,hn⟩ := ih h
      refine ⟨n+1,?_⟩
      have hstep : irq.step ⟨p,irqStatus,irqMask,napi,.txClean status⟩ .handler =
          some ⟨p.reclaim.advanceClean,irqStatus,irqMask,napi,.txClean status⟩ := if_pos hgo
      rw [List.replicate_succ,Machine.run_cons,hstep,Option.bind_some,hn]
    · rw [if_neg hgo] at h
      obtain rfl := Option.some.inj h
      refine ⟨2,?_⟩
      have hstep : irq.step ⟨p,irqStatus,irqMask,napi,.txClean status⟩ .handler =
          some ⟨p,irqStatus,irqMask,napi,.txWake status⟩ := if_neg hgo
      rw [List.replicate_succ,Machine.run_cons,hstep]
      rfl

/-- Between two runs of my_irq_handler of simple_netdev IRQ_TX is set whenever the descriptor
at `tx_clean` is done, in every run in which each acknowledgement is in time; and one that is
not breaks this at once. -/
theorem done_raises_in_time (s : Irq) :
    (irq.ReachableUnder Irq.acksInTime s → s.handler = .idle → FrontDone s.priv →
      hasTx s.irqStatus = true) ∧
    ∀ label t, irq.Reachable s → ¬ s.acksInTime label → irq.step s label = some t →
      t.handler = .idle ∧ FrontDone t.priv ∧ hasTx t.irqStatus = false :=
  ⟨fun h _ hfront => (irq_pending h).front hfront,fun _ _ _ hlate hs => late_ack hlate hs⟩

/-- Two packets are posted and the first is completed; the handler reads IRQ_TX and reclaims
that one. -/
def oneOfTwo : List IrqLabel :=
  [.xmit ⟨1,[7]⟩ (some 4096),.xmit ⟨2,[8]⟩ (some 8192),.complete 0,.callHandler,.handler,.handler,
    .handler]

def Irq.ready : Irq := ⟨Priv.ringReady 0,0,irqTx,false,.idle⟩

/-- The second packet is completed after the handler has ended, or before it acknowledges. -/
theorem done_raises_in_time_run :
    (∃ s, (irq.restrict Irq.acksInTime).run (oneOfTwo ++ [.handler,.handler,.complete 1])
      Irq.ready = some s ∧ FrontDone s.priv ∧ hasTx s.irqStatus = true) ∧
    ∃ s t, irq.run (oneOfTwo ++ [.complete 1,.handler]) Irq.ready = some s ∧
      irq.step s .handler = some t ∧ FrontDone t.priv ∧ hasTx t.irqStatus = false := by
  have hinit : ∀ {ok}, irq.ReachableUnder ok Irq.ready := .init ⟨0,rfl,rfl⟩
  constructor
  · have hrun : ((irq.restrict Irq.acksInTime).run (oneOfTwo ++ [.handler,.handler,.complete 1])
        Irq.ready).map (fun s => (s.handler,decide (FrontDone s.priv))) = some (.idle,true) := by
      decide +kernel
    obtain ⟨s,hs,hout⟩ := Option.map_eq_some_iff.mp hrun
    obtain ⟨hidle,hfront⟩ := Prod.mk.inj hout
    have hfront := of_decide_eq_true hfront
    have hreach := Machine.ReachableUnder.of_run hinit hs
    exact ⟨s,hs,hfront,(done_raises_in_time s).1 hreach hidle hfront⟩
  · have hrun : (irq.run (oneOfTwo ++ [.complete 1,.handler]) Irq.ready).map
        (fun s => (s.handler,decide (s.acksInTime .handler))) = some (.ack irqTx,false) := by
      decide +kernel
    obtain ⟨s,hs,hout⟩ := Option.map_eq_some_iff.mp hrun
    obtain ⟨hpc,hlate⟩ := Prod.mk.inj hout
    obtain ⟨t,ht⟩ : ∃ t, irq.step s .handler = some t := by
      simp [irq,Irq.step,Irq.handlerStep,hpc]
    have hbad := (done_raises_in_time s).2 .handler t (Machine.Reachable.of_run hinit hs)
      (of_decide_eq_false hlate) ht
    exact ⟨s,t,hs,ht,hbad.2⟩

/-- A completion that comes between the loop of my_tx_clean and the acknowledgement is lost. -/
theorem late_ack_run : ∃ s, irq.Reachable s ∧ s.handler = .idle ∧ FrontDone s.priv ∧
    hasTx s.irqStatus = false := by
  have hrun : (irq.run (oneOfTwo ++ [.complete 1,.handler,.handler]) Irq.ready).map
      (fun s => (s.handler,decide (FrontDone s.priv),hasTx s.irqStatus)) =
      some (.idle,true,false) := by decide +kernel
  obtain ⟨s,hs,hout⟩ := Option.map_eq_some_iff.mp hrun
  simp only [Prod.mk.injEq] at hout
  obtain ⟨hidle,hfront,hclear⟩ := hout
  have hinit : irq.Reachable Irq.ready := .init ⟨0,rfl,rfl⟩
  exact ⟨s,Machine.Reachable.of_run hinit hs,hidle,of_decide_eq_true hfront,hclear⟩

end NetLab.SimpleNetdev
