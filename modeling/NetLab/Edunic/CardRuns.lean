import Mathlib
import NetLab.Edunic.Card
import NetLab.Edunic.RxRuns

/-! Runs of the whole card: what one step does, and that both rings stay what they are in runs of
their own paths. -/
namespace NetLab.Edunic
open NetLab.Ring

variable {c d : Card}

/-! ### edunic_intr -/

theorem intr_eq (c : Card) : c.intr =
    { c with
      icr := .none
      carrier := if c.icr.lsc then c.linkUp else c.carrier
      napi := if c.icr.rx ∨ c.icr.tx then c.napi.schedulePrep.1 else c.napi
      ims := if (c.icr.rx ∨ c.icr.tx) ∧ c.napi.schedulePrep.2 then c.ims.clear rxTx else c.ims } := by
  unfold Card.intr
  obtain ⟨napi,prepared⟩ := c.napi.schedulePrep
  by_cases hlsc : c.icr.lsc <;> by_cases hdata : c.icr.rx ∨ c.icr.tx <;> cases prepared <;>
    simp [hlsc,hdata]

section
variable (c)

@[simp] theorem intr_tx : c.intr.tx = c.tx := by rw [intr_eq]
@[simp] theorem intr_rx : c.intr.rx = c.rx := by rw [intr_eq]
@[simp] theorem intr_poll : c.intr.poll = c.poll := by rw [intr_eq]
@[simp] theorem intr_unmasks : c.intr.unmasks = c.unmasks := by rw [intr_eq]
@[simp] theorem intr_iface : c.intr.iface = c.iface := by rw [intr_eq]
@[simp] theorem intr_timerArmed : c.intr.timerArmed = c.timerArmed := by rw [intr_eq]
@[simp] theorem intr_unmasked : c.intr.unmasked = c.unmasked := by rw [intr_eq]
@[simp] theorem intr_woken : c.intr.woken = c.woken := by rw [intr_eq]
@[simp] theorem intr_lsc : c.intr.icr.lsc = false := by rw [intr_eq]; rfl

theorem intr_carrier : c.intr.carrier = if c.icr.lsc then c.linkUp else c.carrier := by
  rw [intr_eq]

theorem intr_napi :
    c.intr.napi = if c.icr.rx ∨ c.icr.tx then c.napi.schedulePrep.1 else c.napi := by
  rw [intr_eq]

/-- Handling an interrupt unmasks nothing. -/
theorem intr_ims (h : c.ims = .none) : c.intr.ims = .none := by
  rw [intr_eq]
  dsimp only
  rw [h]
  by_cases hgo : (c.icr.rx ∨ c.icr.tx) ∧ c.napi.schedulePrep.2
  · rw [if_pos hgo]
    rfl
  · rw [if_neg hgo]

end

/-- What a request does to an enabled context: it is scheduled afterwards, and remembers the
request if it was scheduled before. -/
theorem schedulePrep_enabled {n : Napi} (hmode : n.mode = .enabled) :
    n.schedulePrep.1.scheduled = true ∧ (n.scheduled = true → n.schedulePrep.1.missed = true) ∧
      (n.missed = true → n.schedulePrep.1.missed = true) := by
  unfold Napi.schedulePrep
  rw [if_pos hmode]
  cases hs : n.scheduled with
  | true => exact ⟨rfl,fun _ => rfl,fun _ => rfl⟩
  | false => exact ⟨rfl,fun he => by contradiction,id⟩

theorem schedulePrep_mode (n : Napi) : n.schedulePrep.1.mode = n.mode := by
  unfold Napi.schedulePrep
  by_cases hmode : n.mode = .enabled
  · rw [if_pos hmode]
    cases n.scheduled <;> rfl
  · rw [if_neg hmode]

theorem intr_mode (c : Card) : c.intr.napi.mode = c.napi.mode := by
  rw [intr_napi]
  by_cases hdata : c.icr.rx ∨ c.icr.tx
  · rw [if_pos hdata,schedulePrep_mode]
  · rw [if_neg hdata]

/-! ### What a step does -/

/-- What the next step of edunic_poll does, and when. -/
theorem pollStep_cases (h : c.pollStep = some d) :
    match c.poll with
    | .idle => False
    | .cleanTx budget => ∃ tx i packets bytes,
        c.tx.cleanLoop ringSize c.tx.txRing.nextToClean 0 0 = some (tx,i,packets,bytes) ∧
        (packets ≠ 0 ∧ d = { c with
          tx := (tx.cleanedTo i).count packets bytes, poll := .flag budget } ∨
        packets = 0 ∧ d = { c with tx := tx.cleanedTo i, poll := .cleanRx budget })
    | .flag budget =>
        (c.tx.queueStopped = true ∧ txDescPerPkt ≤ c.tx.txRing.unused) ∧
          d = { c with poll := .wake budget } ∨
        ¬ (c.tx.queueStopped = true ∧ txDescPerPkt ≤ c.tx.txRing.unused) ∧
          d = { c with poll := .cleanRx budget }
    | .wake budget => d = { c with
        tx := { c.tx with queueStopped := false }, woken := true, poll := .cleanRx budget }
    | .cleanRx budget => ∃ rx, c.rx.rxStep (.clean budget) = some rx ∧
        d = { c with rx, poll := .receive budget }
    | .receive budget => ∃ workDone, c.rx.driver = .idle workDone ∧
        (budget ≤ workDone ∧ d = { c with napi := c.napi.repoll, poll := .idle } ∨
        ¬ budget ≤ workDone ∧ d = { c with poll := .completeDone workDone })
    | .completeDone _ =>
        c.napi.missed = true ∧ d = { c with
          napi := { c.napi with missed := false }, poll := .idle } ∨
        c.napi.missed = false ∧ d = { c with
          napi := { c.napi with scheduled := false }, unmasks := c.unmasks+1, poll := .idle } := by
  unfold Card.pollStep at h
  cases hp : c.poll with
  | idle =>
    rw [hp] at h
    contradiction
  | cleanTx budget =>
    rw [hp] at h
    obtain ⟨⟨tx,i,packets,bytes⟩,hloop,h⟩ := Option.bind_eq_some_iff.mp h
    refine ⟨tx,i,packets,bytes,hloop,?_⟩
    by_cases hnone : packets = 0
    · exact .inr ⟨hnone,by simpa [hnone] using h.symm⟩
    · exact .inl ⟨hnone,by simpa [hnone] using h.symm⟩
  | flag budget =>
    rw [hp] at h
    dsimp only at h
    by_cases hwake : c.tx.queueStopped = true ∧ txDescPerPkt ≤ c.tx.txRing.unused
    · rw [if_pos hwake] at h
      exact .inl ⟨hwake,(Option.some.inj h).symm⟩
    · rw [if_neg hwake] at h
      exact .inr ⟨hwake,(Option.some.inj h).symm⟩
  | wake budget =>
    rw [hp] at h
    exact (Option.some.inj h).symm
  | cleanRx budget =>
    rw [hp] at h
    obtain ⟨rx,hrx,rfl⟩ := Option.map_eq_some_iff.mp h
    exact ⟨rx,hrx,rfl⟩
  | receive budget =>
    rw [hp] at h
    cases hd : c.rx.driver with
    | idle workDone =>
      rw [hd] at h
      dsimp only at h
      refine ⟨workDone,rfl,?_⟩
      by_cases hspent : budget ≤ workDone
      · rw [if_pos hspent] at h
        exact .inl ⟨hspent,(Option.some.inj h).symm⟩
      · rw [if_neg hspent] at h
        exact .inr ⟨hspent,(Option.some.inj h).symm⟩
    | harvesting _ _ _ _ => simp [hd] at h
    | refilling _ _ _ _ => simp [hd] at h
    | broken _ _ _ => simp [hd] at h
    | failed => simp [hd] at h
  | completeDone workDone =>
    rw [hp] at h
    unfold Napi.completeDone at h
    cases hm : c.napi.missed with
    | true => exact .inl ⟨rfl,by simpa [hm] using h.symm⟩
    | false => exact .inr ⟨rfl,by simpa [hm] using h.symm⟩

/-- A poll reaches neither the registers nor edunic_open and edunic_stop. -/
theorem pollStep_rest (h : c.pollStep = some d) :
    d.icr = c.icr ∧ d.carrier = c.carrier ∧ d.iface = c.iface ∧ d.timerArmed = c.timerArmed ∧
      d.ims = c.ims ∧ d.unmasked = c.unmasked := by
  have hpoll := pollStep_cases h
  cases hp : c.poll with
  | idle =>
    rw [hp] at hpoll
    contradiction
  | cleanTx budget =>
    rw [hp] at hpoll
    obtain ⟨tx,i,packets,bytes,-,⟨-,rfl⟩ | ⟨-,rfl⟩⟩ := hpoll <;> exact ⟨rfl,rfl,rfl,rfl,rfl,rfl⟩
  | flag budget =>
    rw [hp] at hpoll
    obtain ⟨-,rfl⟩ | ⟨-,rfl⟩ := hpoll <;> exact ⟨rfl,rfl,rfl,rfl,rfl,rfl⟩
  | wake budget =>
    rw [hp] at hpoll
    subst hpoll
    exact ⟨rfl,rfl,rfl,rfl,rfl,rfl⟩
  | cleanRx budget =>
    rw [hp] at hpoll
    obtain ⟨rx,-,rfl⟩ := hpoll
    exact ⟨rfl,rfl,rfl,rfl,rfl,rfl⟩
  | receive budget =>
    rw [hp] at hpoll
    obtain ⟨workDone,-,⟨-,rfl⟩ | ⟨-,rfl⟩⟩ := hpoll <;> exact ⟨rfl,rfl,rfl,rfl,rfl,rfl⟩
  | completeDone workDone =>
    rw [hp] at hpoll
    obtain ⟨-,rfl⟩ | ⟨-,rfl⟩ := hpoll <;> exact ⟨rfl,rfl,rfl,rfl,rfl,rfl⟩

/-- What the next step of edunic_open or edunic_stop does, and when. -/
theorem ndoStep_cases {ok : Bool} (h : c.ndoStep ok = some d) :
    match c.iface with
    | .setupInterrupts => ok = true ∧ d = { c with irqRequested := true, iface := .hwStart } ∨
        ok = false ∧ d = { c with napi := { c.napi with mode := .disabling }, iface := .undoing }
    | .undoing => c.napi.scheduled = false ∧
        d = { c with napi := { c.napi with mode := .disabled }, iface := .down }
    | .hwStart => d = { c with ims := c.ims.set .all, unmasked := true, iface := .linkTimer }
    | .linkTimer => d = { c with timerArmed := true, iface := .startQueue }
    | .startQueue => d = { c with tx := { c.tx with queueStopped := false }, iface := .up }
    | .hwStop => d = { c with ims := c.ims.clear .all, unmasked := false, iface := .freeInterrupts }
    | .freeInterrupts => d = { c with irqRequested := false, iface := .napiDisable }
    | .napiDisable => d = { c with
        napi := { c.napi with mode := .disabling }, iface := .napiDisabling }
    | .napiDisabling => c.napi.scheduled = false ∧
        d = { c with napi := { c.napi with mode := .disabled }, iface := .carrierOff }
    | .carrierOff => d = { c with carrier := false, iface := .stopped }
    | _ => False := by
  unfold Card.ndoStep at h
  cases hi : c.iface <;> rw [hi] at h <;> dsimp only at h ⊢
  case setupInterrupts =>
    cases ok with
    | true => exact .inl ⟨rfl,(Option.some.inj h).symm⟩
    | false => exact .inr ⟨rfl,(Option.some.inj h).symm⟩
  case undoing =>
    cases hs : c.napi.scheduled with
    | true => simp [hs] at h
    | false => exact ⟨rfl,by simpa [hs] using h.symm⟩
  case napiDisabling =>
    cases hs : c.napi.scheduled with
    | true => simp [hs] at h
    | false => exact ⟨rfl,by simpa [hs] using h.symm⟩
  case probing => contradiction
  case down => contradiction
  case up => contradiction
  case stopped => contradiction
  all_goals exact (Option.some.inj h).symm

/-- What each step of the card does, and when. -/
theorem card_cases {label : CardLabel} (h : c.step label = some d) :
    match label with
    | .register => c.iface = .probing ∧ d = { c with iface := .down }
    | .ndoOpen => (c.iface = .down ∨ c.iface = .stopped) ∧
        d = { c with napi := { c.napi with mode := .enabled }, iface := .setupInterrupts }
    | .ndoStop => c.iface = .up ∧
        d = { c with tx := { c.tx with queueStopped := true }, woken := false, iface := .hwStop }
    | .ndo ok => c.ndoStep ok = some d
    | .xmit skb mapping => c.iface = .up ∧ d = { c with tx := (c.tx.startXmit skb mapping).1 }
    | .workerStart => (c.tx.workPending = true ∧ c.tx.txWorker = none) ∧
        d = { c with tx := c.tx.hwTxWorkerStart }
    | .workerRound kmallocOk => ∃ w, c.tx.txWorker = some w ∧ w.head ≠ w.tail ∧
        d = c.hwTxWorkerRound w kmallocOk
    | .workerEnd => ∃ w, c.tx.txWorker = some w ∧ w.head = w.tail ∧ d = c.hwTxWorkerEnd w
    | .interrupt => c.irqRequested = true ∧ d = c.intr
    | .linkTimer => c.timerArmed = true ∧ d = c.linkTimerFn
    | .napiPoll budget => (c.poll = .idle ∧ c.napi.scheduled = true) ∧
        d = { c with poll := .cleanTx budget }
    | .poll => c.pollStep = some d
    | .receive label => (label.driven = true ∧ (c.poll.receiving = true ∨ c.iface = .probing)) ∧
        ∃ rx, c.rx.rxStep label = some rx ∧ d = { c with rx }
    | .unmask => c.unmasks ≠ 0 ∧
        d = { c with ims := c.ims.set rxTx, unmasked := true, unmasks := c.unmasks-1 } := by
  unfold Card.step at h
  cases label with
  | register =>
    cases hd : c.rx.driver with
    | idle w =>
      rw [hd] at h
      exact guarded_eq_some.mp h
    | harvesting _ _ _ _ => simp [hd] at h
    | refilling _ _ _ _ => simp [hd] at h
    | broken _ _ _ => simp [hd] at h
    | failed => simp [hd] at h
  | ndoOpen => exact guarded_eq_some.mp h
  | ndoStop => exact guarded_eq_some.mp h
  | ndo ok => exact h
  | xmit skb mapping => exact guarded_eq_some.mp h
  | workerStart => exact guarded_eq_some.mp h
  | workerRound kmallocOk =>
    cases hw : c.tx.txWorker with
    | none => simp [hw] at h
    | some w =>
      simp only [hw] at h
      obtain ⟨hne,rfl⟩ := guarded_eq_some.mp h
      exact ⟨w,rfl,hne,rfl⟩
  | workerEnd =>
    cases hw : c.tx.txWorker with
    | none => simp [hw] at h
    | some w =>
      simp only [hw] at h
      obtain ⟨heq,rfl⟩ := guarded_eq_some.mp h
      exact ⟨w,rfl,heq,rfl⟩
  | interrupt => exact guarded_eq_some.mp h
  | linkTimer => exact guarded_eq_some.mp h
  | napiPoll budget => exact guarded_eq_some.mp h
  | poll => exact h
  | receive label =>
    dsimp only at h
    by_cases hgo : label.driven = true ∧ (c.poll.receiving = true ∨ c.iface = .probing)
    · rw [if_pos hgo] at h
      obtain ⟨rx,hrx,rfl⟩ := Option.map_eq_some_iff.mp h
      exact ⟨hgo,rx,hrx,rfl⟩
    · rw [if_neg hgo] at h
      contradiction
  | unmask => exact guarded_eq_some.mp h

/-- A round of the worker reaches the receive half with its copy of the frame only. -/
theorem workerRound_eq (c : Card) (w : TxWorker) (kmallocOk : Bool) : ∃ rx icr,
    c.hwTxWorkerRound w kmallocOk = { c with tx := c.tx.hwTxWorkerRound w kmallocOk, rx, icr } ∧
      icr.lsc = c.icr.lsc ∧
      (c.tx.frameCopy w kmallocOk = none ∧ rx = c.rx ∨
        ∃ frame, c.tx.frameCopy w kmallocOk = some frame ∧ rx = c.rx.hwDeliverRxFrame frame) := by
  unfold Card.hwTxWorkerRound
  cases hcopy : c.tx.frameCopy w kmallocOk with
  | none => exact ⟨c.rx,c.icr,rfl,rfl,.inl ⟨rfl,rfl⟩⟩
  | some frame =>
    refine ⟨_,_,rfl,?_,.inr ⟨frame,rfl,rfl⟩⟩
    by_cases hfull : c.rx.rdh = c.rx.rdt
    · rw [if_pos hfull]
    · rw [if_neg hfull]
      exact Bool.or_false _

/-- The end of the worker interrupts when it has sent something. -/
theorem workerEnd_eq (c : Card) (w : TxWorker) : c.hwTxWorkerEnd w =
    if w.sentAny then
      Card.intr { c with tx := c.tx.hwTxWorkerEnd w, icr := c.icr.set ⟨false,true,false⟩ }
    else { c with tx := c.tx.hwTxWorkerEnd w } := rfl

theorem workerEnd_tx (c : Card) (w : TxWorker) : (c.hwTxWorkerEnd w).tx = c.tx.hwTxWorkerEnd w := by
  rw [workerEnd_eq]
  by_cases hsent : w.sentAny
  · rw [if_pos hsent,intr_tx]
  · rw [if_neg hsent]

theorem workerEnd_rx (c : Card) (w : TxWorker) : (c.hwTxWorkerEnd w).rx = c.rx := by
  rw [workerEnd_eq]
  by_cases hsent : w.sentAny
  · rw [if_pos hsent,intr_rx]
  · rw [if_neg hsent]

/-! ### The two rings -/

/-- What becomes of the transmit half in a step. -/
inductive TxMove (c : Card) : CardLabel → Adapter → Prop
  | flag {label : CardLabel} (stopped : Bool) : TxMove c label { c.tx with queueStopped := stopped }
  | xmit {skb : SkBuff} {mapping : Option UInt64} :
    TxMove c (.xmit skb mapping) (c.tx.startXmit skb mapping).1
  | start (idle : c.tx.txWorker = none) : TxMove c .workerStart c.tx.hwTxWorkerStart
  | round {kmallocOk : Bool} {w : TxWorker} (hw : c.tx.txWorker = some w) (ahead : w.head ≠ w.tail) :
    TxMove c (.workerRound kmallocOk) (c.tx.hwTxWorkerRound w kmallocOk)
  | done {w : TxWorker} (hw : c.tx.txWorker = some w) (reached : w.head = w.tail) :
    TxMove c .workerEnd (c.tx.hwTxWorkerEnd w)
  | clean {tx : Adapter} {i packets : ℕ} {bytes : UInt32} (stats : TxStats)
    (loop : c.tx.cleanLoop ringSize c.tx.txRing.nextToClean 0 0 = some (tx,i,packets,bytes)) :
    TxMove c .poll { tx.cleanedTo i with stats }

/-- What becomes of the receive half in a step. -/
inductive RxMove (c : Card) : CardLabel → RxAdapter → Prop
  | keep {label : CardLabel} : RxMove c label c.rx
  | deliver {kmallocOk : Bool} {w : TxWorker} {frame : List UInt8} (hw : c.tx.txWorker = some w)
    (ahead : w.head ≠ w.tail) (copy : c.tx.frameCopy w kmallocOk = some frame) :
    RxMove c (.workerRound kmallocOk) (c.rx.hwDeliverRxFrame frame)
  | driver {label : CardLabel} {rxLabel : RxLabel} {rx : RxAdapter}
    (undelivered : ∀ frame, rxLabel ≠ .deliver frame) (remains : rxLabel ≠ .free)
    (step : c.rx.rxStep rxLabel = some rx) : RxMove c label rx

theorem ndoStep_halves {ok : Bool} (h : c.ndoStep ok = some d) :
    (∃ stopped, d.tx = { c.tx with queueStopped := stopped }) ∧ d.rx = c.rx := by
  have hndo := ndoStep_cases h
  cases hf : c.iface <;> rw [hf] at hndo
  case setupInterrupts => obtain ⟨-,rfl⟩ | ⟨-,rfl⟩ := hndo <;> exact ⟨⟨_,rfl⟩,rfl⟩
  case undoing => obtain ⟨-,rfl⟩ := hndo; exact ⟨⟨_,rfl⟩,rfl⟩
  case napiDisabling => obtain ⟨-,rfl⟩ := hndo; exact ⟨⟨_,rfl⟩,rfl⟩
  case probing => contradiction
  case down => contradiction
  case up => contradiction
  case stopped => contradiction
  all_goals subst hndo; exact ⟨⟨_,rfl⟩,rfl⟩

theorem pollStep_halves (h : c.pollStep = some d) :
    TxMove c .poll d.tx ∧ RxMove c .poll d.rx := by
  have hsame : TxMove c .poll c.tx := .flag c.tx.queueStopped
  have hpoll := pollStep_cases h
  cases hp : c.poll with
  | idle =>
    rw [hp] at hpoll
    contradiction
  | cleanTx budget =>
    rw [hp] at hpoll
    obtain ⟨tx,i,packets,bytes,hloop,⟨-,rfl⟩ | ⟨-,rfl⟩⟩ := hpoll
    · exact ⟨.clean _ hloop,.keep⟩
    · exact ⟨.clean tx.stats hloop,.keep⟩
  | flag budget =>
    rw [hp] at hpoll
    obtain ⟨-,rfl⟩ | ⟨-,rfl⟩ := hpoll <;> exact ⟨hsame,.keep⟩
  | wake budget =>
    rw [hp] at hpoll
    subst hpoll
    exact ⟨.flag false,.keep⟩
  | cleanRx budget =>
    rw [hp] at hpoll
    obtain ⟨rx,hrx,rfl⟩ := hpoll
    exact ⟨hsame,.driver (by simp) (by simp) hrx⟩
  | receive budget =>
    rw [hp] at hpoll
    obtain ⟨workDone,-,⟨-,rfl⟩ | ⟨-,rfl⟩⟩ := hpoll <;> exact ⟨hsame,.keep⟩
  | completeDone workDone =>
    rw [hp] at hpoll
    obtain ⟨-,rfl⟩ | ⟨-,rfl⟩ := hpoll <;> exact ⟨hsame,.keep⟩

/-- A step moves each half as a step of its own path does, or leaves it alone. -/
theorem step_halves {label : CardLabel} (h : c.step label = some d) :
    TxMove c label d.tx ∧ RxMove c label d.rx := by
  have hsame : TxMove c label c.tx := .flag c.tx.queueStopped
  have hcases := card_cases h
  cases label with
  | ndo ok =>
    obtain ⟨⟨stopped,htx⟩,hrx⟩ := ndoStep_halves hcases
    rw [htx,hrx]
    exact ⟨.flag stopped,.keep⟩
  | poll => exact pollStep_halves hcases
  | xmit skb mapping =>
    obtain ⟨-,rfl⟩ := hcases
    exact ⟨.xmit,.keep⟩
  | workerStart =>
    obtain ⟨⟨-,hidle⟩,rfl⟩ := hcases
    exact ⟨.start hidle,.keep⟩
  | workerRound kmallocOk =>
    obtain ⟨w,hw,hne,rfl⟩ := hcases
    obtain ⟨rx,icr,hround,-,hrx⟩ := workerRound_eq c w kmallocOk
    rw [hround]
    refine ⟨.round hw hne,?_⟩
    obtain ⟨-,rfl⟩ | ⟨frame,hcopy,rfl⟩ := hrx
    · exact .keep
    · exact .deliver hw hne hcopy
  | workerEnd =>
    obtain ⟨w,hw,heq,rfl⟩ := hcases
    rw [workerEnd_tx,workerEnd_rx]
    exact ⟨.done hw heq,.keep⟩
  | interrupt =>
    obtain ⟨-,rfl⟩ := hcases
    rw [intr_tx,intr_rx]
    exact ⟨hsame,.keep⟩
  | linkTimer =>
    obtain ⟨-,rfl⟩ := hcases
    unfold Card.linkTimerFn
    rw [intr_tx,intr_rx]
    exact ⟨hsame,.keep⟩
  | receive label =>
    obtain ⟨⟨hdriven,-⟩,rx,hrx,rfl⟩ := hcases
    refine ⟨hsame,.driver ?_ ?_ hrx⟩
    · rintro frame rfl
      contradiction
    · rintro rfl
      contradiction
  | ndoStop =>
    obtain ⟨-,rfl⟩ := hcases
    exact ⟨.flag true,.keep⟩
  | register => obtain ⟨-,rfl⟩ := hcases; exact ⟨hsame,.keep⟩
  | ndoOpen => obtain ⟨-,rfl⟩ := hcases; exact ⟨hsame,.keep⟩
  | napiPoll budget => obtain ⟨-,rfl⟩ := hcases; exact ⟨hsame,.keep⟩
  | unmask => obtain ⟨-,rfl⟩ := hcases; exact ⟨hsame,.keep⟩

/-- The transmit ring in use. -/
def Card.Transmits (c : Card) : Prop :=
  ∃ gone queue n, Loaded c.tx queue n ∧ Ledger c.tx.log gone queue n

/-- The receive ring in use. -/
def Card.Receives (c : Card) : Prop :=
  ∃ start filled waiting shown fresh missed gone,
    RxState c.rx start filled waiting shown fresh missed gone

/-- The loop of edunic_clean_tx_irq takes back whatever is done. -/
theorem cleanLoop_all {a tx : Adapter} {gone queue : List TxBuf} {n i packets : ℕ} {bytes : UInt32}
    (h : Loaded a queue n) (hl : Ledger a.log gone queue n)
    (hloop : a.cleanLoop ringSize a.txRing.nextToClean 0 0 = some (tx,i,packets,bytes)) :
    packets = n ∧ Loaded (tx.cleanedTo i) (queue.drop n) 0 ∧
      Ledger tx.log (gone++queue.take n) (queue.drop n) 0 := by
  have hlt : n < ringSize := lt_of_le_of_lt h.done_le h.room
  have hstart : Loaded (a.cleanedTo a.txRing.nextToClean) queue n := h
  obtain ⟨b,m,hrun,hload,hledger⟩ := cleanLoop_spec hstart hl hlt 0 0
  have heq := Option.some.inj (hloop.symm.trans hrun)
  simp only [Prod.mk.injEq,Nat.zero_add] at heq
  obtain ⟨rfl,rfl,rfl,-⟩ := heq
  exact ⟨rfl,hload,hledger⟩

/-- Whatever reclaiming a slot keeps, the loop of edunic_clean_tx_irq keeps. -/
theorem cleanLoop_keeps {P : Adapter → Prop} (hstep : ∀ a i, P a → P (a.reclaim i)) {fuel : ℕ}
    {a tx : Adapter} {i j packets total : ℕ} {bytes sum : UInt32} (h : P a)
    (hloop : a.cleanLoop fuel i packets bytes = some (tx,j,total,sum)) : P tx := by
  induction fuel generalizing a i packets bytes with
  | zero => contradiction
  | succ fuel ih =>
    unfold Adapter.cleanLoop at hloop
    by_cases hgo : i ≠ a.txRing.nextToUse ∧ (a.txRing.desc i).done = true
    · rw [if_pos hgo] at hloop
      exact ih (hstep a i h) hloop
    · rw [if_neg hgo] at hloop
      obtain ⟨rfl,-⟩ := Prod.mk.inj (Option.some.inj hloop)
      exact h

/-- edunic_start_xmit posts the packet where there is room, or leaves the ring alone. -/
theorem startXmit_cases (a : Adapter) (skb : SkBuff) (mapping : Option UInt64) :
    ∃ stopped stats es, (∀ e ∈ es, TxEvent.completed? e = none) ∧
      ((a.startXmit skb mapping).1 = { a with queueStopped := stopped, stats, log := a.log++es } ∨
        ∃ dma, mapping = some dma ∧ txDescPerPkt ≤ a.txRing.unused ∧ (a.startXmit skb mapping).1 =
          { (a.post skb dma).ringDoorbell.hwKickTx with
            queueStopped := stopped, stats, log := a.log++es }) := by
  obtain ⟨stopped,hstop⟩ := maybeStopTx_fst a txDescPerPkt
  have hroom : (a.maybeStopTx txDescPerPkt).2 = false → txDescPerPkt ≤ a.txRing.unused := by
    intro hgo
    by_contra hfull
    unfold Adapter.maybeStopTx at hgo
    rw [if_neg hfull] at hgo
    simp [not_le.mp hfull] at hgo
  unfold Adapter.startXmit
  generalize a.maybeStopTx txDescPerPkt = answer at hstop hroom ⊢
  obtain ⟨b,busy⟩ := answer
  obtain rfl : b = { a with queueStopped := stopped } := hstop
  cases busy with
  | true => exact ⟨stopped,a.stats,[.refused skb],by simp [TxEvent.completed?],.inl rfl⟩
  | false =>
    cases mapping with
    | none =>
      exact ⟨stopped,{ a.stats with txErrors := a.stats.txErrors+1 },[.kfree skb,.accepted skb],
        by simp [TxEvent.completed?],.inl rfl⟩
    | some dma =>
      dsimp only
      obtain ⟨after,hafter⟩ := maybeStopTx_fst
        (((({ a with queueStopped := stopped } : Adapter).note [.map skb dma]).post skb
          dma).ringDoorbell.hwKickTx) txDescPerPkt
      rw [hafter]
      refine ⟨after,a.stats,[.map skb dma,.accepted skb],by simp [TxEvent.completed?],.inr ?_⟩
      refine ⟨dma,rfl,hroom rfl,?_⟩
      simp [Adapter.note,Adapter.post,Adapter.ringDoorbell,Adapter.hwKickTx]

theorem transmits_step {label : CardLabel} (hi : c.Transmits) (h : c.step label = some d) :
    d.Transmits := by
  obtain ⟨gone,queue,n,hload,hledger⟩ := hi
  have hmove := (step_halves h).1
  unfold Card.Transmits
  generalize d.tx = tx at hmove ⊢
  cases hmove with
  | flag stopped => exact ⟨gone,queue,n,hload.frame _ _ _,hledger⟩
  | xmit =>
    obtain ⟨queue',hload',hledger'⟩ := startXmit_spec hload hledger _ _
    exact ⟨gone,queue',n,hload',hledger'⟩
  | start hidle => exact ⟨gone,queue,n,hload.workerStart hidle,hledger⟩
  | round hw hne =>
    exact ⟨gone,queue,n+1,hload.workerRound hw hne _,workerRound_ledger hload hledger hw hne _⟩
  | done hw heq => exact ⟨gone,queue,n,hload.workerEnd hw heq,workerEnd_ledger hledger _⟩
  | clean stats hloop =>
    obtain ⟨-,hload',hledger'⟩ := cleanLoop_all hload hledger hloop
    exact ⟨_,_,0,hload'.frame _ _ _,hledger'⟩

theorem receives_step {label : CardLabel} (hi : c.Receives) (h : c.step label = some d) :
    d.Receives := by
  obtain ⟨start,filled,waiting,shown,fresh,missed,gone,hs⟩ := hi
  have hmove := (step_halves h).2
  unfold Card.Receives
  generalize d.rx = rx at hmove ⊢
  cases hmove with
  | keep => exact ⟨start,filled,waiting,shown,fresh,missed,gone,hs⟩
  | deliver hw hne hcopy =>
    obtain ⟨filled',waiting',shown',hs'⟩ := hs.deliver _
    exact ⟨start,filled',waiting',shown',fresh,missed,gone,hs'⟩
  | driver hframe hremains hstep => exact rxStep_state hs hremains hstep

theorem probedCard_transmits (tdh tdt rdh rdt : ℕ) : (probedCard tdh tdt rdh rdt).Transmits := by
  obtain ⟨gone,queue,n,hs⟩ | hended := probed_inv tdh tdt
  · exact ⟨gone,queue,n,hs⟩
  · exact absurd hended.released (by simp [probed,Adapter.hwInitRings,emptyTxRing])

theorem probedCard_receives (tdh tdt rdh rdt : ℕ) : (probedCard tdh tdt rdh rdt).Receives := by
  rcases probedRx_inv rdh rdt with hs | hended
  · exact hs
  · exact absurd hended.released (by simp [probedRx,RxAdapter.hwInitRings,
      RxAdapter.allocRxBuffers,emptyRxRing])

theorem card_transmits (h : card.Reachable c) : c.Transmits := by
  have hstep : ∀ s label t, card.Reachable s → s.Transmits → True → card.step s label = some t →
      t.Transmits := fun _ _ _ _ hi _ hstep => transmits_step hi hstep
  refine h.invariant ?_ hstep
  rintro s ⟨tdh,tdt,rdh,rdt,rfl⟩
  exact probedCard_transmits tdh tdt rdh rdt

theorem card_receives (h : card.Reachable c) : c.Receives := by
  have hstep : ∀ s label t, card.Reachable s → s.Receives → True → card.step s label = some t →
      t.Receives := fun _ _ _ _ hi _ hstep => receives_step hi hstep
  refine h.invariant ?_ hstep
  rintro s ⟨tdh,tdt,rdh,rdt,rfl⟩
  exact probedCard_receives tdh tdt rdh rdt

/-! ### NAPI -/

/-- The state napi_enable and napi_disable have left NAPI in. -/
def Iface.napiMode : Iface → NapiMode
  | .setupInterrupts | .hwStart | .linkTimer | .startQueue | .up | .hwStop | .freeInterrupts
  | .napiDisable => .enabled
  | .undoing | .napiDisabling => .disabling
  | .probing | .down | .carrierOff | .stopped => .disabled

/-- A poll runs only while it is scheduled, and a disabled context is not. -/
structure NapiSound (c : Card) : Prop where
  mode : c.napi.mode = c.iface.napiMode
  running : c.poll ≠ .idle → c.napi.scheduled = true
  missed : c.napi.missed = true → c.napi.scheduled = true
  disabled : c.napi.mode = .disabled → c.napi.scheduled = false

namespace NapiSound

/-- Steps that move neither NAPI nor edunic_open nor edunic_stop. -/
theorem frame (h : NapiSound c) (hnapi : d.napi = c.napi) (hiface : d.iface = c.iface)
    (hpoll : d.poll ≠ .idle → c.poll ≠ .idle) : NapiSound d := by
  obtain ⟨hmode,hrunning,hmissed,hdisabled⟩ := h
  rw [← hnapi] at hmode hrunning hmissed hdisabled
  rw [← hiface] at hmode
  exact ⟨hmode,fun hp => hrunning (hpoll hp),hmissed,hdisabled⟩

/-- A disabled context runs no poll. -/
theorem idle (h : NapiSound c) (hmode : c.napi.mode = .disabled) : c.poll = .idle := by
  by_contra hp
  have hscheduled := h.running hp
  rw [h.disabled hmode] at hscheduled
  contradiction

theorem schedulePrep (h : NapiSound c) : NapiSound { c with napi := c.napi.schedulePrep.1 } := by
  obtain ⟨hmode,hrunning,hmissed,hdisabled⟩ := h
  by_cases henabled : c.napi.mode = .enabled
  · have hscheduled := (schedulePrep_enabled henabled).1
    refine ⟨(schedulePrep_mode _).trans hmode,fun _ => hscheduled,fun _ => hscheduled,fun hd => ?_⟩
    rw [schedulePrep_mode,henabled] at hd
    contradiction
  · have hsame : c.napi.schedulePrep.1 = c.napi := by
      unfold Napi.schedulePrep
      rw [if_neg henabled]
    rw [hsame]
    exact ⟨hmode,hrunning,hmissed,hdisabled⟩

theorem intr (h : NapiSound c) : NapiSound c.intr := by
  have hpoll : c.intr.poll ≠ .idle → c.poll ≠ .idle := by
    rw [intr_poll]
    exact id
  by_cases hdata : c.icr.rx ∨ c.icr.tx
  · have hnapi : c.intr.napi = c.napi.schedulePrep.1 := by rw [intr_napi,if_pos hdata]
    exact h.schedulePrep.frame hnapi (intr_iface c) hpoll
  · have hnapi : c.intr.napi = c.napi := by rw [intr_napi,if_neg hdata]
    exact h.frame hnapi (intr_iface c) hpoll

theorem ndoStep {ok : Bool} (h : NapiSound c) (hstep : c.ndoStep ok = some d) : NapiSound d := by
  obtain ⟨hmode,hrunning,hmissed,hdisabled⟩ := h
  have hndo := ndoStep_cases hstep
  cases hf : c.iface <;> rw [hf] at hndo hmode
  case setupInterrupts =>
    obtain ⟨-,rfl⟩ | ⟨-,rfl⟩ := hndo
    · exact ⟨hmode,hrunning,hmissed,hdisabled⟩
    · exact ⟨rfl,hrunning,hmissed,by simp⟩
  case undoing =>
    obtain ⟨hidle,rfl⟩ := hndo
    exact ⟨rfl,hrunning,hmissed,fun _ => hidle⟩
  case napiDisabling =>
    obtain ⟨hidle,rfl⟩ := hndo
    exact ⟨rfl,hrunning,hmissed,fun _ => hidle⟩
  case napiDisable =>
    subst hndo
    exact ⟨rfl,hrunning,hmissed,by simp⟩
  case probing => contradiction
  case down => contradiction
  case up => contradiction
  case stopped => contradiction
  all_goals subst hndo; exact ⟨hmode,hrunning,hmissed,hdisabled⟩

theorem completeDone (h : NapiSound c) :
    NapiSound { c with napi := c.napi.completeDone.1, poll := .idle } := by
  obtain ⟨hmode,hrunning,hmissed,hdisabled⟩ := h
  unfold Napi.completeDone
  cases hm : c.napi.missed with
  | true => exact ⟨hmode,by simp,by simp,hdisabled⟩
  | false => exact ⟨hmode,by simp,fun hmiss => by simp at hmiss,fun _ => rfl⟩

theorem pollStep (h : NapiSound c) (hstep : c.pollStep = some d) : NapiSound d := by
  have hpoll := pollStep_cases hstep
  have hcomplete := h.completeDone
  unfold Napi.completeDone at hcomplete
  cases hp : c.poll with
  | idle =>
    rw [hp] at hpoll
    contradiction
  | cleanTx budget =>
    rw [hp] at hpoll
    obtain ⟨tx,i,packets,bytes,-,⟨-,rfl⟩ | ⟨-,rfl⟩⟩ := hpoll <;>
      exact h.frame rfl rfl (fun _ => by simp [hp])
  | flag budget =>
    rw [hp] at hpoll
    obtain ⟨-,rfl⟩ | ⟨-,rfl⟩ := hpoll <;> exact h.frame rfl rfl (fun _ => by simp [hp])
  | wake budget =>
    rw [hp] at hpoll
    subst hpoll
    exact h.frame rfl rfl (fun _ => by simp [hp])
  | cleanRx budget =>
    rw [hp] at hpoll
    obtain ⟨rx,-,rfl⟩ := hpoll
    exact h.frame rfl rfl (fun _ => by simp [hp])
  | receive budget =>
    rw [hp] at hpoll
    obtain ⟨workDone,-,⟨-,rfl⟩ | ⟨-,rfl⟩⟩ := hpoll
    · unfold Napi.repoll
      by_cases hmode : c.napi.mode = .disabling
      · rw [if_pos hmode]
        exact h.completeDone
      · rw [if_neg hmode]
        exact h.frame rfl rfl (fun _ => by simp [hp])
    · exact h.frame rfl rfl (fun _ => by simp [hp])
  | completeDone workDone =>
    rw [hp] at hpoll
    obtain ⟨hmiss,rfl⟩ | ⟨hmiss,rfl⟩ := hpoll
    · rw [if_pos hmiss] at hcomplete
      exact hcomplete
    · rw [if_neg (by simp [hmiss])] at hcomplete
      exact hcomplete.frame rfl rfl id

theorem step {label : CardLabel} (h : NapiSound c) (hstep : c.step label = some d) :
    NapiSound d := by
  have hcases := card_cases hstep
  cases label with
  | ndo ok => exact h.ndoStep hcases
  | poll => exact h.pollStep hcases
  | register =>
    obtain ⟨hf,rfl⟩ := hcases
    have hmode := h.mode
    rw [hf] at hmode
    exact ⟨hmode,h.running,h.missed,h.disabled⟩
  | ndoOpen =>
    obtain ⟨-,rfl⟩ := hcases
    exact ⟨rfl,h.running,h.missed,by simp⟩
  | ndoStop =>
    obtain ⟨hf,rfl⟩ := hcases
    have hmode := h.mode
    rw [hf] at hmode
    exact ⟨hmode,h.running,h.missed,h.disabled⟩
  | workerRound kmallocOk =>
    obtain ⟨w,-,-,rfl⟩ := hcases
    obtain ⟨rx,icr,hround,-⟩ := workerRound_eq c w kmallocOk
    rw [hround]
    exact h.frame rfl rfl id
  | workerEnd =>
    obtain ⟨w,-,-,rfl⟩ := hcases
    rw [workerEnd_eq]
    by_cases hsent : w.sentAny
    · rw [if_pos hsent]
      exact intr (h.frame rfl rfl id)
    · rw [if_neg hsent]
      exact h.frame rfl rfl id
  | interrupt =>
    obtain ⟨-,rfl⟩ := hcases
    exact h.intr
  | linkTimer =>
    obtain ⟨-,rfl⟩ := hcases
    exact intr (h.frame rfl rfl id)
  | napiPoll budget =>
    obtain ⟨⟨-,hscheduled⟩,rfl⟩ := hcases
    exact ⟨h.mode,fun _ => hscheduled,h.missed,h.disabled⟩
  | receive label =>
    obtain ⟨-,rx,-,rfl⟩ := hcases
    exact h.frame rfl rfl id
  | xmit skb mapping => obtain ⟨-,rfl⟩ := hcases; exact h.frame rfl rfl id
  | workerStart => obtain ⟨-,rfl⟩ := hcases; exact h.frame rfl rfl id
  | unmask => obtain ⟨-,rfl⟩ := hcases; exact h.frame rfl rfl id

end NapiSound

theorem card_napi (h : card.Reachable c) : NapiSound c := by
  have hstep : ∀ s label t, card.Reachable s → NapiSound s → True → card.step s label = some t →
      NapiSound t := fun _ _ _ _ hi _ hstep => hi.step hstep
  refine h.invariant ?_ hstep
  rintro s ⟨tdh,tdt,rdh,rdt,rfl⟩
  exact ⟨rfl,by simp [probedCard],by simp [probedCard],by simp [probedCard]⟩

/-! ### Parts of runs -/

theorem card_init {ok : Card → CardLabel → Prop} (tdh tdt rdh rdt : ℕ) :
    card.ReachableUnder ok (probedCard tdh tdt rdh rdt) := .init ⟨tdh,tdt,rdh,rdt,rfl⟩

/-- Probed with one receive buffer and opened. -/
def openedOnce : List CardLabel :=
  [.receive (.refill (some ⟨1,[]⟩) (some 4096)),.receive (.refill none none),.receive .announce,
    .register,.ndoOpen,.ndo true,.ndo true,.ndo true,.ndo true]

/-- One packet, up to the interrupt. -/
def onePacket : List CardLabel :=
  [.xmit ⟨10,[1,2]⟩ (some 64),.workerStart,.workerRound true,.workerEnd]

/-- The poll after it, which takes back the packet and gets its frame, but no new buffer. -/
def onePoll : List CardLabel :=
  [.napiPoll 64,.poll,.poll,.poll,.receive .harvest,.receive .harvested,
    .receive (.refill none none),.receive .announce,.poll,.poll,.unmask]

/-- edunic_open, from its call to its return. -/
def openSteps : List CardLabel := [.ndoOpen,.ndo true,.ndo true,.ndo true,.ndo true]

/-- edunic_stop, from its call to its return, with no poll scheduled. -/
def stopSteps : List CardLabel :=
  [.ndoStop,.ndo true,.ndo true,.ndo true,.ndo true,.ndo true]

end NetLab.Edunic
