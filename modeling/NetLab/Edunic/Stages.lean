import NetLab.Edunic.CardDeeds

/-! What is known of the card at each stage of its device: it works, nothing runs on it, or its
rings have been given back. And what is held meanwhile. -/
namespace NetLab.Edunic

variable {c e : Card} {d d' : Device} {label : CardLabel}

/-! ### What the card's steps leave alone -/

@[simp] theorem intr_irqRequested (c : Card) : c.intr.irqRequested = c.irqRequested := by
  rw [intr_eq]

/-- What only administrative steps move, and the timer, which nothing else arms. -/
structure SameOffice (c e : Card) : Prop where
  iface : e.iface = c.iface
  irq : e.irqRequested = c.irqRequested
  timer : e.timerArmed = true → c.timerArmed = true

theorem step_office (hlabel : label.administrative = false) (h : c.step label = some e) :
    SameOffice c e := by
  have hcases := card_cases h
  cases label with
  | register => contradiction
  | ndoOpen => contradiction
  | ndoStop => contradiction
  | ndo ok => contradiction
  | xmit skb mapping => obtain ⟨-,rfl⟩ := hcases; exact ⟨rfl,rfl,id⟩
  | workerStart => obtain ⟨-,rfl⟩ := hcases; exact ⟨rfl,rfl,id⟩
  | workerRound kmallocOk =>
    obtain ⟨w,-,-,rfl⟩ := hcases
    obtain ⟨rx,icr,hround,-⟩ := workerRound_eq c w kmallocOk
    rw [hround]
    exact ⟨rfl,rfl,id⟩
  | workerEnd =>
    obtain ⟨w,-,-,rfl⟩ := hcases
    rw [workerEnd_eq]
    by_cases hsent : w.sentAny
    · rw [if_pos hsent]
      exact ⟨intr_iface _,intr_irqRequested _,by rw [intr_timerArmed]; exact id⟩
    · rw [if_neg hsent]
      exact ⟨rfl,rfl,id⟩
  | interrupt =>
    obtain ⟨-,rfl⟩ := hcases
    exact ⟨intr_iface c,intr_irqRequested c,by rw [intr_timerArmed]; exact id⟩
  | linkTimer =>
    obtain ⟨harmed,rfl⟩ := hcases
    exact ⟨intr_iface _,intr_irqRequested _,fun _ => harmed⟩
  | napiPoll budget => obtain ⟨-,rfl⟩ := hcases; exact ⟨rfl,rfl,id⟩
  | poll =>
    have hpoll := pollStep_cases hcases
    cases hp : c.poll <;> rw [hp] at hpoll
    case idle => contradiction
    case cleanTx => obtain ⟨tx,i,packets,bytes,-,⟨-,rfl⟩ | ⟨-,rfl⟩⟩ := hpoll <;> exact ⟨rfl,rfl,id⟩
    case flag => obtain ⟨-,rfl⟩ | ⟨-,rfl⟩ := hpoll <;> exact ⟨rfl,rfl,id⟩
    case wake => subst hpoll; exact ⟨rfl,rfl,id⟩
    case cleanRx => obtain ⟨rx,-,rfl⟩ := hpoll; exact ⟨rfl,rfl,id⟩
    case receive => obtain ⟨w,-,⟨-,rfl⟩ | ⟨-,rfl⟩⟩ := hpoll <;> exact ⟨rfl,rfl,id⟩
    case completeDone => obtain ⟨-,rfl⟩ | ⟨-,rfl⟩ := hpoll <;> exact ⟨rfl,rfl,id⟩
  | receive label => obtain ⟨-,rx,-,rfl⟩ := hcases; exact ⟨rfl,rfl,id⟩
  | unmask => obtain ⟨-,rfl⟩ := hcases; exact ⟨rfl,rfl,id⟩

/-- Only a poll leaves an unmask behind. -/
theorem step_unmasks (hidle : c.poll = .idle) (h : c.step label = some e) :
    e.unmasks ≤ c.unmasks := by
  have hcases := card_cases h
  cases label with
  | ndo ok =>
    have hndo := ndoStep_cases hcases
    cases hf : c.iface <;> rw [hf] at hndo
    case setupInterrupts => obtain ⟨-,rfl⟩ | ⟨-,rfl⟩ := hndo <;> exact le_rfl
    case undoing => obtain ⟨-,rfl⟩ := hndo; exact le_rfl
    case napiDisabling => obtain ⟨-,rfl⟩ := hndo; exact le_rfl
    case probing => contradiction
    case down => contradiction
    case up => contradiction
    case stopped => contradiction
    all_goals subst hndo; exact le_rfl
  | poll =>
    have hpoll := pollStep_cases hcases
    rw [hidle] at hpoll
    contradiction
  | workerRound kmallocOk =>
    obtain ⟨w,-,-,rfl⟩ := hcases
    obtain ⟨rx,icr,hround,-⟩ := workerRound_eq c w kmallocOk
    rw [hround]
  | workerEnd =>
    obtain ⟨w,-,-,rfl⟩ := hcases
    rw [workerEnd_eq]
    by_cases hsent : w.sentAny
    · rw [if_pos hsent,intr_unmasks]
    · rw [if_neg hsent]
  | interrupt => obtain ⟨-,rfl⟩ := hcases; exact (intr_unmasks c).le
  | linkTimer => obtain ⟨-,rfl⟩ := hcases; exact (intr_unmasks _).le
  | receive label => obtain ⟨-,rx,-,rfl⟩ := hcases; exact le_rfl
  | unmask => obtain ⟨-,rfl⟩ := hcases; exact Nat.sub_le _ _
  | register => obtain ⟨-,rfl⟩ := hcases; exact le_rfl
  | ndoOpen => obtain ⟨-,rfl⟩ := hcases; exact le_rfl
  | ndoStop => obtain ⟨-,rfl⟩ := hcases; exact le_rfl
  | xmit skb mapping => obtain ⟨-,rfl⟩ := hcases; exact le_rfl
  | workerStart => obtain ⟨-,rfl⟩ := hcases; exact le_rfl
  | napiPoll budget => obtain ⟨-,rfl⟩ := hcases; exact le_rfl

/-! ### The card of a device -/

/-- request_irq has been called and free_irq has not. -/
def Iface.listening : Iface → Bool
  | .hwStart | .linkTimer | .startQueue | .up | .hwStop | .freeInterrupts => true
  | _ => false

def Iface.closed (f : Iface) : Prop := f = .down ∨ f = .stopped

/-- Not opened: in edunic_probe, or closed. -/
def Iface.resting (f : Iface) : Prop := f = .probing ∨ f.closed

/-- What holds of a card from edunic_probe to edunic_remove. -/
structure Alive (c : Card) : Prop where
  transmits : c.Transmits
  receives : c.Receives
  napi : NapiSound c
  irq : c.irqRequested = c.iface.listening

namespace Alive

theorem probed (tdh tdt rdh rdt : ℕ) : Alive (probedCard tdh tdt rdh rdt) :=
  have hinit : card.Reachable (probedCard tdh tdt rdh rdt) := card_init tdh tdt rdh rdt
  ⟨card_transmits hinit,card_receives hinit,card_napi hinit,rfl⟩

theorem step (h : Alive c) (hstep : c.step label = some e) : Alive e := by
  refine ⟨transmits_step h.transmits hstep,receives_step h.receives hstep,h.napi.step hstep,?_⟩
  have hirq := h.irq
  cases hlabel : label.administrative with
  | false =>
    have hoffice := step_office hlabel hstep
    rw [hoffice.iface,hoffice.irq,hirq]
  | true =>
    have hcases := card_cases hstep
    cases label with
    | register => obtain ⟨hf,rfl⟩ := hcases; rw [hf] at hirq; exact hirq
    | ndoOpen => obtain ⟨hf | hf,rfl⟩ := hcases <;> rw [hf] at hirq <;> exact hirq
    | ndoStop => obtain ⟨hf,rfl⟩ := hcases; rw [hf] at hirq; exact hirq
    | ndo ok =>
      have hndo := ndoStep_cases hcases
      cases hf : c.iface <;> rw [hf] at hndo hirq
      case setupInterrupts => obtain ⟨-,rfl⟩ | ⟨-,rfl⟩ := hndo <;> first | rfl | exact hirq
      case undoing => obtain ⟨-,rfl⟩ := hndo; exact hirq
      case napiDisabling => obtain ⟨-,rfl⟩ := hndo; exact hirq
      case freeInterrupts => subst hndo; rfl
      case probing => contradiction
      case down => contradiction
      case up => contradiction
      case stopped => contradiction
      all_goals subst hndo; exact hirq
    | _ => contradiction

theorem disabled (h : Alive c) (hresting : c.iface.resting) : c.napi.mode = .disabled := by
  have hmode := h.napi.mode
  obtain hf | hf | hf := hresting <;> rw [hf] at hmode <;> exact hmode

/-- Nobody listens to the interrupt of a card at rest. -/
theorem unrequested (h : Alive c) (hresting : c.iface.resting) : c.irqRequested = false := by
  rw [h.irq]
  obtain hf | hf | hf := hresting <;> rw [hf] <;> rfl

/-- Whoever asks NAPI on a card at rest is told no. -/
theorem no_schedule (h : Alive c) (hresting : c.iface.resting) :
    c.napi.schedulePrep.2 = false := by
  unfold Napi.schedulePrep
  rw [if_neg (by rw [h.disabled hresting]; decide)]

theorem counts (h : Alive c) : c.tx.txRing.count = ringSize ∧ c.rx.rxRing.count = ringSize := by
  obtain ⟨gone,queue,n,hload,hledger⟩ := h.transmits
  obtain ⟨start,filled,waiting,shown,fresh,missed,gone',hs⟩ := h.receives
  exact ⟨hload.count,hs.loaded.count⟩

end Alive

/-- A card on which nothing runs and nothing is to run, but the receive code in edunic_probe. -/
structure Inert (c : Card) : Prop where
  iface : c.iface.resting
  work : c.tx.workPending = false ∧ c.tx.txWorker = none
  timer : c.timerArmed = false
  irq : c.irqRequested = false
  scheduled : c.napi.scheduled = false
  poll : c.poll = .idle
  unmasks : c.unmasks = 0

/-- The only steps of an inert card that nobody opens are those of the receive code. -/
theorem Inert.step (h : Inert c) (hregister : label ≠ .register) (hopen : label ≠ .ndoOpen)
    (hstep : c.step label = some e) :
    Inert e ∧ e.iface = c.iface ∧ ∃ rxLabel, label = .receive rxLabel := by
  have hcases := card_cases hstep
  have hup : c.iface ≠ .up := by obtain hf | hf | hf := h.iface <;> rw [hf] <;> decide
  cases label with
  | receive rxLabel =>
    obtain ⟨-,rx,-,rfl⟩ := hcases
    exact ⟨⟨h.iface,h.work,h.timer,h.irq,h.scheduled,h.poll,h.unmasks⟩,rfl,rxLabel,rfl⟩
  | register => contradiction
  | ndoOpen => contradiction
  | ndoStop => exact absurd hcases.1 hup
  | xmit skb mapping => exact absurd hcases.1 hup
  | ndo ok =>
    have hndo := ndoStep_cases hcases
    obtain hf | hf | hf := h.iface <;> rw [hf] at hndo <;> contradiction
  | workerStart => obtain ⟨⟨hwork,-⟩,-⟩ := hcases; rw [h.work.1] at hwork; contradiction
  | workerRound kmallocOk => obtain ⟨w,hw,-⟩ := hcases; rw [h.work.2] at hw; contradiction
  | workerEnd => obtain ⟨w,hw,-⟩ := hcases; rw [h.work.2] at hw; contradiction
  | interrupt => obtain ⟨hr,-⟩ := hcases; rw [h.irq] at hr; contradiction
  | linkTimer => obtain ⟨harmed,-⟩ := hcases; rw [h.timer] at harmed; contradiction
  | napiPoll budget => obtain ⟨⟨-,hs⟩,-⟩ := hcases; rw [h.scheduled] at hs; contradiction
  | poll =>
    have hpoll := pollStep_cases hcases
    rw [h.poll] at hpoll
    contradiction
  | unmask => obtain ⟨hne,-⟩ := hcases; exact absurd h.unmasks hne

/-- A card whose rings have been given back. -/
structure Ended (c : Card) : Prop extends Inert c where
  tx : TxEnded c.tx
  rx : RxEnded c.rx

namespace Ended

/-- Nothing is left that could take a step, not even the receive code. -/
theorem refuses (h : Ended c) (hregister : label ≠ .register) (hopen : label ≠ .ndoOpen) :
    c.step label = none := by
  cases hstep : c.step label with
  | none => rfl
  | some e =>
    obtain ⟨-,-,rxLabel,rfl⟩ := h.toInert.step hregister hopen hstep
    obtain ⟨-,rx,hrx,-⟩ := card_cases hstep
    have halloc := (rxStep_cases hrx).1
    rw [h.rx.released] at halloc
    contradiction

theorem extras (h : Ended c) : c.extras = ∅ := by
  apply extras_none h.timer
  · simp [Adapter.working,h.work]
  · exact h.tx.empty
  · exact h.rx.empty

end Ended

namespace Alive

theorem inert (h : Alive c) (hresting : c.iface.resting)
    (hwork : c.tx.workPending = false ∧ c.tx.txWorker = none) (htimer : c.timerArmed = false)
    (hunmasks : c.unmasks = 0) : Inert c :=
  have hmode := h.disabled hresting
  ⟨hresting,hwork,htimer,h.unrequested hresting,h.napi.disabled hmode,h.napi.idle hmode,hunmasks⟩

/-- cancel_work_sync and the two functions that free the rings. -/
theorem freeRings (h : Alive c) (hresting : c.iface.resting) (hworker : c.tx.txWorker = none)
    (htimer : c.timerArmed = false) (hunmasks : c.unmasks = 0) : Ended c.freeRings := by
  obtain ⟨gone,queue,n,hload,hledger⟩ := h.transmits
  obtain ⟨start,filled,waiting,shown,fresh,missed,gone',hs⟩ := h.receives
  have hmode := h.disabled hresting
  obtain ⟨hpending,hnone⟩ := freeTxResources_work { c.tx with workPending := false }
  exact ⟨⟨hresting,⟨hpending,hnone.trans hworker⟩,htimer,h.unrequested hresting,
    h.napi.disabled hmode,h.napi.idle hmode,hunmasks⟩,freeTxResources_spec hload hledger,
    hs.loaded.remove hs.carried⟩

/-- The timer is one of several things that may still go off. -/
theorem cancelTimer (h : Alive c) : Alive c.cancelTimer :=
  ⟨h.transmits,h.receives,h.napi.frame rfl rfl id,h.irq⟩

end Alive

/-- What is known of the card at a stage of its device. -/
def Fits (c : Card) : Stage → Prop
  | .unbound => Ended c
  | .probing => Alive c ∧ Inert c ∧ c.iface = .probing
  | .bound => Alive c ∧ c.iface ≠ .probing
  | .unregistered => Alive c ∧ c.iface.closed
  | .napiDeleted => Alive c ∧ c.iface.closed ∧ c.unmasks = 0
  | .timerCancelled => Alive c ∧ c.iface.closed ∧ c.unmasks = 0 ∧ c.timerArmed = false

/-- What is held at a stage besides the card's extras, with the interrupt requested or not. -/
def Stage.holding (requested : Bool) : Stage → Finset Resource
  | .unbound => ∅
  | .probing => core
  | .bound => core ∪ {.workqueue,.napi,.registration} ∪ if requested then {.vectors,.irq} else ∅
  | .unregistered => core ∪ {.workqueue,.napi}
  | .napiDeleted | .timerCancelled => core ∪ {.workqueue}

def Device.holding (d : Device) : Finset Resource :=
  match d.card with
  | none => d.stage.holding false
  | some c => d.stage.holding c.irqRequested ∪ c.extras

theorem holding_card {stage : Stage} (log : Deeds) (c : Card) :
    Device.holding ⟨stage,some c,log⟩ = stage.holding c.irqRequested ∪ c.extras := rfl

theorem holding_firm {stage : Stage} (hbound : stage ≠ .unbound) (requested : Bool) :
    Firm (stage.holding requested) := by
  cases stage with
  | unbound => contradiction
  | _ => cases requested <;> exact ⟨by decide,by decide⟩

end NetLab.Edunic
