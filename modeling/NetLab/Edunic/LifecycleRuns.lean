import NetLab.Edunic.Stages

/-! Runs of the device: nothing is touched that is not held, but for requests to NAPI while
edunic_remove runs, and nothing stays held. -/
namespace NetLab.Edunic

variable {c e : Card} {d d' : Device} {label : CardLabel}

/-! ### Deeds of the device -/

theorem setupTxDeeds_cases (descOk bufOk : Bool) :
    setupTxDeeds descOk bufOk = ([.acquire .txDesc,.acquire .txBuf],true) ∨
      setupTxDeeds descOk bufOk = ([.acquire .txDesc,.release .txDesc],false) ∨
      setupTxDeeds descOk bufOk = ([],false) := by
  cases descOk <;> cases bufOk <;> simp [setupTxDeeds]

theorem setupRxDeeds_cases (descOk bufOk : Bool) :
    setupRxDeeds descOk bufOk = ([.acquire .rxDesc,.acquire .rxBuf],true) ∨
      setupRxDeeds descOk bufOk = ([.acquire .rxDesc,.release .rxDesc],false) ∨
      setupRxDeeds descOk bufOk = ([],false) := by
  cases descOk <;> cases bufOk <;> simp [setupRxDeeds]

/-- There is nothing to free in a fresh ring. -/
theorem freeTxDeeds_fresh : freeTxDeeds emptyTxRing = [.release .txBuf,.release .txDesc] := by
  simp [freeTxDeeds,freeTxSlot,emptyTxRing]

/-- What a failed function has got is given back, and a successful one has got the core. -/
def AllOrCore (outcome : Deeds × Bool) : Prop :=
  Performs ∅ outcome.1 (if outcome.2 then core else ∅)

instance (outcome : Deeds × Bool) : Decidable (AllOrCore outcome) :=
  inferInstanceAs (Decidable (Performs _ _ _))

/-- The calls of edunic_probe in their order: the first one that fails decides what is undone. None
of them asks NAPI. -/
theorem probeRings_outcome (ans : ProbeAnswers) :
    AllOrCore (probeRings ans) ∧ .use .napi ∉ (probeRings ans).1 := by
  unfold probeRings errFreeTx
  rw [freeTxDeeds_fresh]
  dsimp only
  split
  · decide
  split
  · decide
  split
  · decide
  split
  · decide
  split
  · decide
  obtain htx | htx | htx := setupTxDeeds_cases ans.txDesc ans.txBuf <;> rw [htx]
  · obtain hrx | hrx | hrx := setupRxDeeds_cases ans.rxDesc ans.rxBuf <;> rw [hrx] <;> decide
  · simp only [Bool.not_false,↓reduceIte]
    decide
  · simp only [Bool.not_false,↓reduceIte]
    decide

/-- Without timer and work, the extras are what is in the slots. -/
theorem extras_slots (htimer : c.timerArmed = false) (hwork : c.tx.working = false) :
    c.extras = slots .tx (c.occupied .tx) ∪ slots .rx (c.occupied .rx) := by
  rw [Card.extras,htimer,hwork]
  exact Finset.empty_union _

theorem slots_extra (c : Card) :
    ∀ r ∈ slots .tx (c.occupied .tx) ∪ slots .rx (c.occupied .rx), r.extra = true := by
  intro r hr
  exact (Finset.mem_union.mp hr).elim extra_of_mem_slots extra_of_mem_slots

/-- The error path undoes what edunic_probe has done when edunic_alloc_rx_buffers is behind it. -/
theorem errFreeRx_performs (halive : Alive c) (hinert : Inert c) :
    Performs (core ∪ c.extras) (errFreeRx c) ∅ := by
  have hrest : Performs lowest errFreeNetdev ∅ := by decide
  have hwork : c.tx.working = false := by simp [Adapter.working,hinert.work]
  rw [extras_slots hinert.timer hwork]
  unfold errFreeRx errFreeTx
  rw [← List.append_assoc]
  exact (freeRings_performs halive.counts.1 halive.counts.2).append hrest

/-- When register_netdev fails, NAPI and the workqueue have been got for nothing. -/
theorem errNapiDel_performs (halive : Alive c) (hinert : Inert c) :
    Performs (core ∪ c.extras) ([.acquire .workqueue,.acquire .napi] ++ errNapiDel c) ∅ := by
  have hwork : c.tx.working = false := by simp [Adapter.working,hinert.work]
  have hsplit : [.acquire .workqueue,.acquire .napi] ++ errNapiDel c =
      [.acquire .workqueue,.acquire .napi,.release .napi,.use .netdev,.release .workqueue] ++
        errFreeRx c := by
    simp [errNapiDel,Card.emulationUninit,Card.cancelTimerDeeds,Card.destroyWorkDeeds,
      hinert.timer,hwork]
  have hbegin : Performs (core ∪ c.extras)
      [.acquire .workqueue,.acquire .napi,.release .napi,.use .netdev,.release .workqueue]
      (core ∪ c.extras) := by
    rw [extras_slots hinert.timer hwork]
    exact Performs.framed (by decide) (slots_extra c) (slots_stand.union slots_stand) (by decide)
      (by decide)
  rw [hsplit]
  exact hbegin.append (errFreeRx_performs halive hinert)

/-- The last call of edunic_remove gives back everything. -/
theorem teardown_performs (halive : Alive c) (htimer : c.timerArmed = false) :
    Performs (core ∪ {.workqueue} ∪ c.extras)
      (c.destroyWorkDeeds ++ freeRxDeeds c.rx.rxRing ++ freeTxDeeds c.tx.txRing ++
        [.release .mapping,.release .regions,.release .netdev,.release .device]) ∅ := by
  have hwork : Performs (core ∪ {.workqueue} ∪ c.extras)
      (if c.tx.working then [.release .work] else [])
      (core ∪ {.workqueue} ∪ (slots .tx (c.occupied .tx) ∪ slots .rx (c.occupied .rx))) := by
    cases hworking : c.tx.working with
    | false =>
      rw [if_neg Bool.false_ne_true,extras_slots htimer hworking]
      exact Leads.nil
    | true =>
      have hlose : Leads (core ∪ {.workqueue}) c.extras [.release .work] (c.extras.erase .work) :=
        .lose (by decide) rfl (mem_extras_work.mpr hworking) (by simp)
      have herase : c.extras.erase .work =
          slots .tx (c.occupied .tx) ∪ slots .rx (c.occupied .rx) := by
        rw [Card.extras,htimer,hworking]
        simp [heldIf,slots]
      rw [if_pos rfl,← herase]
      exact hlose
  have hqueue : Performs
      (core ∪ {.workqueue} ∪ (slots .tx (c.occupied .tx) ∪ slots .rx (c.occupied .rx)))
      [.release .workqueue] (core ∪ (slots .tx (c.occupied .tx) ∪ slots .rx (c.occupied .rx))) :=
    Performs.framed (by decide) (slots_extra c) (slots_stand.union slots_stand) (by decide)
      (by decide)
  have hend : Performs lowest
      [.release .mapping,.release .regions,.release .netdev,.release .device] ∅ := by decide
  have hrings := freeRings_performs halive.counts.1 halive.counts.2
  unfold Card.destroyWorkDeeds
  rw [List.append_assoc _ (freeRxDeeds _)]
  exact ((hwork.append hqueue).append hrings).append hend

/-! ### Steps of the device -/

/-- The stage and the card of a device agree. -/
structure DeviceInv (d : Device) : Prop where
  fits : ∀ c, d.card = some c → Fits c d.stage

/-- The deeds of a step lead from what is held before to what is held after it. -/
def Accounted (d d' : Device) : Prop := ∃ deeds, d'.log = d.log ++ deeds ∧
  Performs d.holding deeds d'.holding

theorem DeviceInv.of_fits {stage : Stage} {log : Deeds} (h : Fits c stage) :
    DeviceInv ⟨stage,some c,log⟩ := by
  constructor
  intro c' hc'
  obtain rfl : c = c' := by simpa using hc'
  exact h

/-- An unbound device holds nothing. -/
theorem DeviceInv.unbound (hi : DeviceInv d) (hstage : d.stage = .unbound) : d.holding = ∅ := by
  unfold Device.holding
  cases hc : d.card with
  | none =>
    dsimp only
    rw [hstage]
    rfl
  | some c =>
    have hended := hi.fits c hc
    rw [hstage] at hended
    dsimp only
    rw [hstage,Ended.extras hended]
    rfl

/-- A step that gives back everything leaves the device unbound. -/
theorem Ended.unbinds {deeds : Deeds} (hended : Ended e) (hrun : Performs d.holding deeds ∅) :
    DeviceInv (d.note .unbound (some e) deeds) ∧
      Accounted d (d.note .unbound (some e) deeds) := by
  have hi' : DeviceInv (d.note .unbound (some e) deeds) := .of_fits hended
  refine ⟨hi',deeds,rfl,?_⟩
  rw [hi'.unbound rfl]
  exact hrun

theorem probe_step (hi : DeviceInv d) {ans : ProbeAnswers} (h : d.step (.probe ans) = some d') :
    DeviceInv d' ∧ Accounted d d' := by
  simp only [Device.step] at h
  split at h
  · next hstage =>
    have hrun := (probeRings_outcome ans).1
    unfold AllOrCore at hrun
    have hnone := hi.unbound hstage
    generalize probeRings ans = outcome at h hrun
    obtain ⟨deeds,there⟩ := outcome
    cases there with
    | true =>
      obtain rfl := Option.some.inj h
      have halive : Alive (probedCard ans.tdh ans.tdt ans.rdh ans.rdt) := Alive.probed _ _ _ _
      have hinert := halive.inert (.inl rfl) ⟨rfl,rfl⟩ rfl rfl
      have hextras : (probedCard ans.tdh ans.tdt ans.rdh ans.rdt).extras = ∅ :=
        extras_none rfl rfl (fun _ _ => rfl) fun _ _ => rfl
      refine ⟨.of_fits ⟨halive,hinert,rfl⟩,deeds,rfl,?_⟩
      rw [hnone,Device.note,holding_card,hextras,Finset.union_empty]
      exact hrun
    | false =>
      obtain rfl := Option.some.inj h
      have hi' : DeviceInv (d.note .unbound d.card deeds) := by
        refine ⟨fun c hc => ?_⟩
        have hfits := hi.fits c hc
        rwa [hstage] at hfits
      refine ⟨hi',deeds,rfl,?_⟩
      rw [hnone,hi'.unbound rfl]
      exact hrun
  · contradiction

theorem finishProbe_step {workqueue register : Bool} (hstage : d.stage = .probing)
    (hc : d.card = some c) (hfits : Fits c .probing)
    (h : d.finishProbe c workqueue register = some d') : DeviceInv d' ∧ Accounted d d' := by
  obtain ⟨halive,hinert,hiface⟩ := hfits
  have hheld : d.holding = core ∪ c.extras := by
    unfold Device.holding
    rw [hc,hstage]
    rfl
  have hended : Ended c.freeRings :=
    halive.freeRings (.inl hiface) hinert.work.2 hinert.timer hinert.unmasks
  have hended' : Ended c.cancelTimer.freeRings :=
    halive.cancelTimer.freeRings (.inl hiface) hinert.work.2 rfl hinert.unmasks
  have hback : Performs d.holding (errFreeRx c) ∅ := by
    rw [hheld]
    exact errFreeRx_performs halive hinert
  unfold Device.finishProbe at h
  cases hd : c.rx.driver with
  | failed =>
    rw [hd] at h
    obtain rfl := Option.some.inj h
    exact hended.unbinds hback
  | idle w =>
    rw [hd] at h
    dsimp only at h
    cases workqueue with
    | false =>
      obtain rfl := Option.some.inj h
      exact hended.unbinds hback
    | true =>
      cases register with
      | false =>
        obtain rfl := Option.some.inj h
        apply hended'.unbinds
        rw [hheld]
        exact errNapiDel_performs halive hinert
      | true =>
        obtain ⟨e,hstep,rfl⟩ := Option.map_eq_some_iff.mp h
        have halive' := halive.step hstep
        obtain ⟨-,rfl⟩ := card_cases hstep
        have hirq : c.irqRequested = false := hinert.irq
        refine ⟨.of_fits ⟨halive',by simp⟩,_,rfl,?_⟩
        rw [hheld,Device.note,holding_card]
        dsimp only
        rw [hirq]
        exact Performs.beside c (by decide) (by decide) (by decide)
  | harvesting _ _ _ _ => simp [hd] at h
  | refilling _ _ _ _ => simp [hd] at h
  | broken _ _ _ => simp [hd] at h

/-- The calls and statements of edunic_open and edunic_stop. -/
theorem ndo_performs (halive : Alive c) (hlabel : label.administrative = true)
    (hregister : label ≠ .register) (h : c.step label = some e) (vectors : Bool) :
    Performs (Stage.bound.holding c.irqRequested ∪ c.extras) (c.deeds label vectors)
      (Stage.bound.holding e.irqRequested ∪ e.extras) := by
  have hcases := card_cases h
  have hirq := halive.irq
  have hfirm : Firm (Stage.bound.holding c.irqRequested) := holding_firm (by decide) _
  have hbase : .registration ∈ Stage.bound.holding c.irqRequested := by simp [Stage.holding]
  cases label with
  | register => contradiction
  | ndoOpen =>
    obtain ⟨-,rfl⟩ := hcases
    change Leads _ c.extras (uses [.napi]) c.extras
    exact .uses (by simp)
  | ndoStop =>
    obtain ⟨-,rfl⟩ := hcases
    change Leads _ c.extras (uses [.registration,.netdev]) c.extras
    exact hfirm.uses (by simp [core,hbase])
  | ndo ok =>
    have hndo := ndoStep_cases hcases
    simp only [Card.deeds,Card.ndoDeeds]
    cases hf : c.iface <;> rw [hf] at hndo hirq
    case setupInterrupts =>
      have hgot : Performs (Stage.bound.holding false ∪ c.extras) [.acquire .vectors,.acquire .irq]
          (Stage.bound.holding true ∪ c.extras) := .beside c (by decide) (by decide) (by decide)
      have hlost : Performs (Stage.bound.holding false ∪ c.extras)
          [.acquire .vectors,.release .vectors] (Stage.bound.holding false ∪ c.extras) :=
        .beside c (by decide) (by decide) (by decide)
      obtain ⟨rfl,rfl⟩ | ⟨rfl,rfl⟩ := hndo
      · rw [hirq]
        exact hgot
      · rw [hirq]
        cases vectors with
        | true => exact hlost
        | false => exact Leads.nil
    case undoing =>
      obtain ⟨-,rfl⟩ := hndo
      change Leads _ c.extras (uses [.napi]) c.extras
      exact .uses (by simp)
    case hwStart =>
      subst hndo
      change Leads _ c.extras (uses [.netdev,.mapping]) c.extras
      exact hfirm.uses (by simp [core])
    case linkTimer =>
      subst hndo
      have hadapter : Leads (Stage.bound.holding c.irqRequested) c.extras (uses [.netdev])
          c.extras := hfirm.uses (by simp [core])
      refine hadapter.append ?_
      cases harmed : c.timerArmed with
      | true =>
        have hextras : c.extras = Card.extras { c with timerArmed := true, iface := .startQueue } :=
          extras_same harmed.symm rfl rfl
        rw [if_pos rfl,← hextras]
        change Leads _ c.extras (uses [.linkTimer]) c.extras
        exact hfirm.uses (by simp [harmed])
      | false =>
        have hextras : insert .linkTimer c.extras =
            Card.extras { c with timerArmed := true, iface := .startQueue } :=
          extras_armed rfl rfl rfl
        rw [if_neg Bool.false_ne_true,← hextras]
        refine .gain hfirm.plain rfl (by simp [harmed]) ?_
        exact Finset.Subset.trans (by decide) (hfirm.core.trans Finset.subset_union_left)
    case startQueue =>
      subst hndo
      change Leads _ c.extras (uses [.netdev]) c.extras
      exact hfirm.uses (by simp [core])
    case hwStop =>
      subst hndo
      change Leads _ c.extras (uses [.netdev,.mapping]) c.extras
      exact hfirm.uses (by simp [core])
    case freeInterrupts =>
      subst hndo
      have hfreed : Performs (Stage.bound.holding true ∪ c.extras) [.release .irq,.release .vectors]
          (Stage.bound.holding false ∪ c.extras) := .beside c (by decide) (by decide) (by decide)
      rw [hirq]
      exact hfreed
    case napiDisable =>
      subst hndo
      change Leads _ c.extras (uses [.napi]) c.extras
      exact .uses (by simp)
    case napiDisabling =>
      obtain ⟨-,rfl⟩ := hndo
      change Leads _ c.extras (uses [.napi]) c.extras
      exact .uses (by simp)
    case carrierOff =>
      subst hndo
      change Leads _ c.extras (uses [.netdev]) c.extras
      exact hfirm.uses (by simp [core])
    case probing => contradiction
    case down => contradiction
    case up => contradiction
    case stopped => contradiction
  | _ => contradiction

/-- No step leads back into edunic_probe. -/
theorem probed_step (hprobed : c.iface ≠ .probing) (h : c.step label = some e) :
    e.iface ≠ .probing := by
  cases hlabel : label.administrative with
  | false => rwa [(step_office hlabel h).iface]
  | true =>
    have hcases := card_cases h
    cases label with
    | register => obtain ⟨-,rfl⟩ := hcases; simp
    | ndoOpen => obtain ⟨-,rfl⟩ := hcases; simp
    | ndoStop => obtain ⟨-,rfl⟩ := hcases; simp
    | ndo ok =>
      have hndo := ndoStep_cases hcases
      cases hf : c.iface <;> rw [hf] at hndo
      case setupInterrupts => obtain ⟨-,rfl⟩ | ⟨-,rfl⟩ := hndo <;> simp
      case undoing => obtain ⟨-,rfl⟩ := hndo; simp
      case napiDisabling => obtain ⟨-,rfl⟩ := hndo; simp
      case probing => contradiction
      case down => contradiction
      case up => contradiction
      case stopped => contradiction
      all_goals subst hndo; simp
    | _ => contradiction

/-- On a closed card nothing administrative happens without a call of edunic_open. -/
theorem closed_work (hclosed : c.iface.closed) (hopen : label ≠ .ndoOpen)
    (h : c.step label = some e) : label.administrative = false := by
  have hcases := card_cases h
  cases label with
  | register => obtain ⟨hf,-⟩ := hcases; simp [hf,Iface.closed] at hclosed
  | ndoOpen => contradiction
  | ndoStop => obtain ⟨hf,-⟩ := hcases; simp [hf,Iface.closed] at hclosed
  | ndo ok =>
    have hndo := ndoStep_cases hcases
    obtain hf | hf := hclosed <;> rw [hf] at hndo <;> contradiction
  | _ => rfl

/-- edunic_remove has begun, and has not ended. -/
def Stage.removing : Stage → Bool
  | .unregistered | .napiDeleted | .timerCancelled => true
  | _ => false

/-- A step of the worker, the timer, the interrupt or the poll while edunic_remove runs. -/
theorem closed_step {stage : Stage} (hstage : stage.removing = true) (halive : Alive c)
    (hclosed : c.iface.closed) (hopen : label ≠ .ndoOpen) (h : c.step label = some e)
    (vectors : Bool) : Alive e ∧ e.iface.closed ∧ (c.unmasks = 0 → e.unmasks = 0) ∧
      (c.timerArmed = false → e.timerArmed = false) ∧
      Performs (stage.holding c.irqRequested ∪ c.extras) (c.deeds label vectors)
        (stage.holding e.irqRequested ∪ e.extras) := by
  have hlabel := closed_work hclosed hopen h
  have hoffice := step_office hlabel h
  have hrequested := halive.unrequested (.inr hclosed)
  have hfirm : Firm (stage.holding c.irqRequested) := by
    refine holding_firm ?_ _
    rintro rfl
    contradiction
  have hworkqueue : .workqueue ∈ stage.holding c.irqRequested := by
    cases stage <;> first | contradiction | simp [Stage.holding]
  have hnapi := halive.napi.idle (halive.disabled (.inr hclosed))
  refine ⟨halive.step h,by rwa [hoffice.iface],fun hnone => ?_,fun htimer => ?_,?_⟩
  · exact Nat.le_zero.mp (hnone ▸ step_unmasks hnapi h)
  · by_contra harmed
    have harmed' := hoffice.timer (by simpa using harmed)
    rw [htimer] at harmed'
    contradiction
  · rw [hoffice.irq]
    refine work_leads hfirm hworkqueue ?_ ?_ halive.transmits halive.receives hlabel h vectors
    · intro hup
      simp [hup,Iface.closed] at hclosed
    · intro hirq
      rw [hrequested] at hirq
      contradiction

theorem card_step (hfits : Fits c d.stage) (hadmits : d.admits label = true)
    (h : c.step label = some e) (vectors : Bool) : Fits e d.stage ∧
      Performs (d.stage.holding c.irqRequested ∪ c.extras) (c.deeds label vectors)
        (d.stage.holding e.irqRequested ∪ e.extras) := by
  have hregister : label ≠ .register := by
    rintro rfl
    contradiction
  have hopen : d.stage ≠ .bound → label ≠ .ndoOpen := by
    rintro hstage rfl
    simp [Device.admits,hstage] at hadmits
  cases hstage : d.stage <;> rw [hstage] at hfits hopen
  case unbound =>
    have hrefuses := Ended.refuses hfits hregister (hopen (by decide))
    rw [hrefuses] at h
    contradiction
  case probing =>
    obtain ⟨halive,hinert,hiface⟩ := hfits
    obtain ⟨hinert',hiface',rxLabel,rfl⟩ := hinert.step hregister (hopen (by decide)) h
    refine ⟨⟨halive.step h,hinert',hiface'.trans hiface⟩,?_⟩
    exact receiveStep_leads (holding_firm (by decide) _) halive.receives h vectors
  case bound =>
    obtain ⟨halive,hprobed⟩ := hfits
    refine ⟨⟨halive.step h,probed_step hprobed h⟩,?_⟩
    cases hlabel : label.administrative with
    | true => exact ndo_performs halive hlabel hregister h vectors
    | false =>
      rw [(step_office hlabel h).irq]
      refine work_leads (holding_firm (by decide) _) ?_ ?_ ?_ halive.transmits halive.receives
        hlabel h vectors
      · simp [Stage.holding]
      · simp [Stage.holding]
      · intro hrequested
        simp [Stage.holding,hrequested]
  case unregistered =>
    have hremoving : Stage.removing .unregistered = true := rfl
    obtain ⟨halive,hclosed⟩ := hfits
    obtain ⟨halive',hclosed',-,-,hrun⟩ :=
      closed_step hremoving halive hclosed (hopen (by decide)) h vectors
    exact ⟨⟨halive',hclosed'⟩,hrun⟩
  case napiDeleted =>
    have hremoving : Stage.removing .napiDeleted = true := rfl
    obtain ⟨halive,hclosed,hnone⟩ := hfits
    obtain ⟨halive',hclosed',hunmasks,-,hrun⟩ :=
      closed_step hremoving halive hclosed (hopen (by decide)) h vectors
    exact ⟨⟨halive',hclosed',hunmasks hnone⟩,hrun⟩
  case timerCancelled =>
    have hremoving : Stage.removing .timerCancelled = true := rfl
    obtain ⟨halive,hclosed,hnone,htimer⟩ := hfits
    obtain ⟨halive',hclosed',hunmasks,htimer',hrun⟩ :=
      closed_step hremoving halive hclosed (hopen (by decide)) h vectors
    exact ⟨⟨halive',hclosed',hunmasks hnone,htimer' htimer⟩,hrun⟩

/-- hrtimer_cancel disarms the timer if it is armed. -/
theorem cancelTimer_performs {stage : Stage} (hbound : stage ≠ .unbound) (c : Card) :
    Performs (stage.holding c.irqRequested ∪ c.extras) c.cancelTimerDeeds
      (stage.holding c.irqRequested ∪ c.cancelTimer.extras) := by
  have hfirm : Firm (stage.holding c.irqRequested) := holding_firm hbound _
  have hadapter : Leads (stage.holding c.irqRequested) c.extras (uses [.netdev]) c.extras :=
    hfirm.uses (by simp [core])
  have hcancel : Leads (stage.holding c.irqRequested) c.extras
      (if c.timerArmed then [.release .linkTimer] else []) c.cancelTimer.extras := by
    cases harmed : c.timerArmed with
    | true =>
      have hextras : c.extras.erase .linkTimer = c.cancelTimer.extras :=
        extras_disarmed rfl rfl rfl
      rw [if_pos rfl,← hextras]
      exact .lose hfirm.plain rfl (mem_extras_timer.mpr harmed) (by simp)
    | false =>
      have hextras : c.extras = c.cancelTimer.extras := extras_same harmed.symm rfl rfl
      rw [if_neg Bool.false_ne_true,← hextras]
      exact .nil
  exact Performs.append hadapter hcancel

theorem remove_step {l : DeviceLabel} (hc : d.card = some c) (hfits : Fits c d.stage)
    (h : d.removeStep c l = some d') : DeviceInv d' ∧ Accounted d d' := by
  have hheld : d.holding = d.stage.holding c.irqRequested ∪ c.extras := by
    rw [Device.holding,hc]
  cases l with
  | unregisterNetdev =>
    obtain ⟨⟨hstage,hclosed⟩,rfl⟩ := guarded_eq_some.mp h
    rw [hstage] at hfits hheld
    obtain ⟨halive,-⟩ := hfits
    refine ⟨.of_fits ⟨halive,hclosed⟩,_,rfl,?_⟩
    rw [hheld,Device.note,holding_card,halive.unrequested (.inr hclosed)]
    exact Performs.beside c (by decide) (by decide) (by decide)
  | napiDel =>
    obtain ⟨⟨hstage,-,hnone⟩,rfl⟩ := guarded_eq_some.mp h
    rw [hstage] at hfits hheld
    obtain ⟨halive,hclosed⟩ := hfits
    refine ⟨.of_fits ⟨halive,hclosed,hnone⟩,_,rfl,?_⟩
    rw [hheld,Device.note,holding_card,halive.unrequested (.inr hclosed)]
    exact Performs.beside c (by decide) (by decide) (by decide)
  | cancelTimer =>
    obtain ⟨hstage,rfl⟩ := guarded_eq_some.mp h
    rw [hstage] at hfits hheld
    obtain ⟨halive,hclosed,hnone⟩ := hfits
    refine ⟨.of_fits ⟨halive.cancelTimer,hclosed,hnone,rfl⟩,_,rfl,?_⟩
    rw [hheld]
    exact cancelTimer_performs (by decide) c
  | teardown =>
    obtain ⟨⟨hstage,hworker⟩,rfl⟩ := guarded_eq_some.mp h
    rw [hstage] at hfits hheld
    obtain ⟨halive,hclosed,hnone,htimer⟩ := hfits
    have hended : Ended c.freeRings := halive.freeRings (.inr hclosed) hworker htimer hnone
    apply hended.unbinds
    rw [hheld]
    exact teardown_performs halive htimer
  | probe ans => contradiction
  | finishProbe workqueue register => contradiction
  | card label vectors => contradiction

/-- Every step keeps the invariant and the accounts. -/
theorem device_step (hi : DeviceInv d) {l : DeviceLabel} (h : d.step l = some d') :
    DeviceInv d' ∧ Accounted d d' := by
  cases hc : d.card with
  | none =>
    cases l with
    | probe ans => exact probe_step hi h
    | _ => simp [Device.step,hc] at h
  | some c =>
    have hfits := hi.fits c hc
    cases l with
    | probe ans => exact probe_step hi h
    | finishProbe workqueue register =>
      simp only [Device.step,hc] at h
      by_cases hstage : d.stage = .probing
      · rw [if_pos hstage] at h
        rw [hstage] at hfits
        exact finishProbe_step hstage hc hfits h
      · rw [if_neg hstage] at h
        contradiction
    | card label vectors =>
      simp only [Device.step,hc] at h
      by_cases hadmits : d.admits label = true
      · rw [if_pos hadmits] at h
        obtain ⟨e,hstep,rfl⟩ := Option.map_eq_some_iff.mp h
        obtain ⟨hfits',hrun⟩ := card_step hfits hadmits hstep vectors
        refine ⟨.of_fits hfits',_,rfl,?_⟩
        rw [Device.holding,hc]
        exact hrun
      · rw [if_neg hadmits] at h
        contradiction
    | unregisterNetdev => exact remove_step hc hfits (by simpa [Device.step,hc] using h)
    | napiDel => exact remove_step hc hfits (by simpa [Device.step,hc] using h)
    | cancelTimer => exact remove_step hc hfits (by simpa [Device.step,hc] using h)
    | teardown => exact remove_step hc hfits (by simpa [Device.step,hc] using h)

theorem device_inv (h : device.Reachable d) : DeviceInv d := by
  have hstep : ∀ s l t, device.Reachable s → DeviceInv s → True → device.step s l = some t →
      DeviceInv t := fun _ _ _ _ hi _ hstep => (device_step hi hstep).1
  refine h.invariant ?_ hstep
  rintro s rfl
  exact ⟨by simp⟩

theorem device_accounts (h : device.Reachable d) : Performs ∅ d.log d.holding := by
  refine Inventory.accounts (fun d : Device => withoutUses .napi d.log) Device.holding ?_ ?_ h
  · rintro s rfl
    exact ⟨rfl,rfl⟩
  · intro s l t hs _ hstep
    obtain ⟨deeds,hlog,hrun⟩ := (device_step (device_inv hs) hstep).2
    refine ⟨withoutUses .napi deeds,?_,hrun⟩
    rw [hlog,withoutUses_append]

/-! ### Requests to NAPI -/

/-- The step calls edunic_intr, which finds a receive or transmit cause. -/
def Card.requests (c : Card) : CardLabel → Bool
  | .interrupt | .linkTimer => c.icr.rx || c.icr.tx
  | .workerEnd => c.tx.txWorker.any TxWorker.sentAny
  | _ => false

/-- netif_napi_del has been called and edunic_remove goes on. -/
def Stage.late (stage : Stage) : Prop := stage = .napiDeleted ∨ stage = .timerCancelled

/-- Between netif_napi_del and destroy_workqueue nobody calls edunic_intr with such a cause. -/
def Device.Prompt (d : Device) : DeviceLabel → Prop
  | .card label _ => d.stage.late → ∀ c, d.card = some c → c.requests label = false
  | _ => True

theorem intr_asks : .use .napi ∈ c.intrDeeds ↔ c.icr.rx = true ∨ c.icr.tx = true := by
  unfold Card.intrDeeds
  by_cases hdata : c.icr.rx = true ∨ c.icr.tx = true
  · rw [if_pos hdata]
    simp [hdata]
  · rw [if_neg hdata]
    simp [uses,hdata]

/-- On a closed card only edunic_intr asks NAPI, when it finds a cause. -/
theorem napi_asked (halive : Alive c) (hclosed : c.iface.closed) (hopen : label ≠ .ndoOpen)
    (h : c.step label = some e) (vectors : Bool) :
    .use .napi ∈ c.deeds label vectors ↔ c.requests label = true := by
  have hlabel := closed_work hclosed hopen h
  have hmode := halive.disabled (.inr hclosed)
  have hidle := halive.napi.idle hmode
  have hcases := card_cases h
  cases label with
  | register => contradiction
  | ndoOpen => contradiction
  | ndoStop => contradiction
  | ndo ok => contradiction
  | xmit skb mapping =>
    obtain ⟨hup,-⟩ := hcases
    simp [hup,Iface.closed] at hclosed
  | workerStart => simp [Card.deeds,Card.requests,uses]
  | workerRound kmallocOk =>
    obtain ⟨w,hw,-,-⟩ := hcases
    refine iff_of_false ?_ (by simp [Card.requests])
    simp only [Card.deeds,hw,Card.workerRoundDeeds,List.mem_append,not_or]
    refine ⟨⟨by simp [uses],?_⟩,?_⟩
    · split <;> simp
    · cases c.tx.frameCopy w kmallocOk with
      | none => simp
      | some frame =>
        unfold Card.deliverDeeds
        split <;> simp [uses]
  | workerEnd =>
    obtain ⟨w,hw,-,-⟩ := hcases
    have hlast : .use .napi ∉ if c.tx.workPending then [] else [Deed.release Resource.work] := by
      split <;> simp
    simp only [Card.deeds,hw,Card.requests,Option.any_some,Card.workerEndDeeds,List.mem_append,
      hlast,or_false]
    by_cases hsent : w.sentAny = true
    · rw [if_pos hsent,List.mem_cons,intr_asks]
      simp [Causes.set,hsent]
    · rw [if_neg hsent]
      simp [uses,hsent]
  | interrupt =>
    simp only [Card.deeds,List.mem_cons,reduceCtorEq,false_or,Deed.use.injEq,intr_asks,
      Card.requests,Bool.or_eq_true]
  | linkTimer =>
    simp only [Card.deeds,List.mem_append,intr_asks,Card.requests,Bool.or_eq_true]
    simp [uses,Causes.set]
  | napiPoll budget =>
    obtain ⟨⟨-,hscheduled⟩,-⟩ := hcases
    rw [halive.napi.disabled hmode] at hscheduled
    contradiction
  | poll =>
    have hpoll := pollStep_cases hcases
    rw [hidle] at hpoll
    contradiction
  | receive rxLabel =>
    obtain ⟨⟨-,hreceiving | hf⟩,-⟩ := hcases
    · rw [hidle] at hreceiving
      contradiction
    · simp [hf,Iface.closed] at hclosed
  | unmask => simp [Card.deeds,Card.requests,uses]

theorem freeTx_silent (ring : TxRing) : .use .napi ∉ freeTxDeeds ring := by
  simp only [freeTxDeeds,List.mem_append,List.mem_flatMap,not_or,not_exists,not_and]
  refine ⟨fun k _ => ?_,by simp⟩
  unfold freeTxSlot
  cases (ring.buf k).skb <;> simp [emptySlot]

theorem freeRx_silent (ring : RxRing) : .use .napi ∉ freeRxDeeds ring := by
  simp only [freeRxDeeds,List.mem_append,List.mem_flatMap,not_or,not_exists,not_and]
  refine ⟨fun k _ => ?_,by simp⟩
  unfold freeRxSlot
  cases (ring.buf k).skb <;> simp [emptySlot]

theorem errFreeRx_silent (c : Card) : .use .napi ∉ errFreeRx c := by
  simp [errFreeRx,errFreeTx,errFreeNetdev,errIounmap,errReleaseRegions,errDisableDevice,
    freeTx_silent,freeRx_silent]

theorem cancelTimer_silent (c : Card) : .use .napi ∉ c.cancelTimerDeeds := by
  unfold Card.cancelTimerDeeds
  cases c.timerArmed <;> simp

theorem destroyWork_silent (c : Card) : .use .napi ∉ c.destroyWorkDeeds := by
  unfold Card.destroyWorkDeeds
  cases c.tx.working <;> simp

theorem finishProbe_silent {workqueue register : Bool}
    (h : d.finishProbe c workqueue register = some d') :
    ∃ deeds, d'.log = d.log ++ deeds ∧ .use .napi ∉ deeds := by
  have hsilent := errFreeRx_silent c
  unfold Device.finishProbe at h
  cases hd : c.rx.driver with
  | failed =>
    rw [hd] at h
    obtain rfl := Option.some.inj h
    exact ⟨_,rfl,hsilent⟩
  | idle w =>
    rw [hd] at h
    dsimp only at h
    cases workqueue with
    | false =>
      obtain rfl := Option.some.inj h
      exact ⟨_,rfl,hsilent⟩
    | true =>
      cases register with
      | false =>
        obtain rfl := Option.some.inj h
        refine ⟨_,rfl,?_⟩
        simp [errNapiDel,Card.emulationUninit,cancelTimer_silent,destroyWork_silent,hsilent]
      | true =>
        obtain ⟨e,-,rfl⟩ := Option.map_eq_some_iff.mp h
        exact ⟨_,rfl,by simp⟩
  | harvesting _ _ _ _ => simp [hd] at h
  | refilling _ _ _ _ => simp [hd] at h
  | broken _ _ _ => simp [hd] at h

theorem removeStep_silent {l : DeviceLabel} (h : d.removeStep c l = some d') :
    ∃ deeds, d'.log = d.log ++ deeds ∧ .use .napi ∉ deeds := by
  cases l with
  | unregisterNetdev =>
    obtain ⟨-,rfl⟩ := guarded_eq_some.mp h
    exact ⟨_,rfl,by simp⟩
  | napiDel =>
    obtain ⟨-,rfl⟩ := guarded_eq_some.mp h
    exact ⟨_,rfl,by simp⟩
  | cancelTimer =>
    obtain ⟨-,rfl⟩ := guarded_eq_some.mp h
    exact ⟨_,rfl,cancelTimer_silent c⟩
  | teardown =>
    obtain ⟨-,rfl⟩ := guarded_eq_some.mp h
    refine ⟨_,rfl,?_⟩
    simp [destroyWork_silent,freeTx_silent,freeRx_silent]
  | probe ans => contradiction
  | finishProbe workqueue register => contradiction
  | card label vectors => contradiction

/-- edunic_probe and edunic_remove themselves do not ask NAPI. -/
theorem step_silent {l : DeviceLabel} (h : d.step l = some d')
    (hl : ∀ label vectors, l ≠ .card label vectors) :
    ∃ deeds, d'.log = d.log ++ deeds ∧ .use .napi ∉ deeds := by
  cases l with
  | card label vectors => exact absurd rfl (hl label vectors)
  | probe ans =>
    have hsilent := (probeRings_outcome ans).2
    simp only [Device.step] at h
    by_cases hstage : d.stage = .unbound
    · rw [if_pos hstage] at h
      generalize probeRings ans = outcome at h hsilent
      obtain ⟨deeds,there⟩ := outcome
      cases there <;> obtain rfl := Option.some.inj h <;> exact ⟨deeds,rfl,hsilent⟩
    · rw [if_neg hstage] at h
      contradiction
  | finishProbe workqueue register =>
    cases hc : d.card with
    | none => simp [Device.step,hc] at h
    | some c =>
      simp only [Device.step,hc] at h
      by_cases hstage : d.stage = .probing
      · rw [if_pos hstage] at h
        exact finishProbe_silent h
      · rw [if_neg hstage] at h
        contradiction
  | _ =>
    cases hc : d.card with
    | none => simp [Device.step,hc] at h
    | some c =>
      simp only [Device.step,hc] at h
      exact removeStep_silent h

/-- What the log says of a resource in a reachable state. -/
theorem device_books (h : device.Reachable d) (r : Resource) :
    (r ∈ d.holding → Open d.log r) ∧ (r ∉ d.holding → Shut d.log r) := by
  have hbooks := Inventory.books (device_accounts h)
  exact ⟨fun hr => open_withoutUses.mp (hbooks.opened r hr),
    fun hr => shut_withoutUses.mp (hbooks.rest r hr)⟩

/-- The card of a device that takes a step of it, and what is known of it. -/
theorem card_of_step (hi : DeviceInv d) {vectors : Bool}
    (h : d.step (.card label vectors) = some d') : ∃ c e, d.card = some c ∧ Fits c d.stage ∧
      c.step label = some e ∧ d.admits label = true ∧
      d' = d.note d.stage (some e) (c.deeds label vectors) := by
  cases hc : d.card with
  | none => simp [Device.step,hc] at h
  | some c =>
    simp only [Device.step,hc] at h
    by_cases hadmits : d.admits label = true
    · rw [if_pos hadmits] at h
      obtain ⟨e,hstep,rfl⟩ := Option.map_eq_some_iff.mp h
      exact ⟨c,e,rfl,hi.fits c hc,hstep,hadmits,rfl⟩
    · rw [if_neg hadmits] at h
      contradiction

/-- Nothing is asked of NAPI in edunic_probe, and nothing happens on an unbound device. -/
theorem early_silent (hfits : Fits c d.stage) (hstage : d.stage = .unbound ∨ d.stage = .probing)
    (hadmits : d.admits label = true) (h : c.step label = some e) (vectors : Bool) :
    .use .napi ∉ c.deeds label vectors := by
  have hregister : label ≠ .register := by
    rintro rfl
    contradiction
  have hopen : label ≠ .ndoOpen := by
    rintro rfl
    obtain hs | hs := hstage <;> simp [Device.admits,hs] at hadmits
  obtain hs | hs := hstage <;> rw [hs] at hfits
  · rw [Ended.refuses hfits hregister hopen] at h
    contradiction
  · obtain ⟨-,hinert,hiface⟩ := hfits
    obtain ⟨-,-,rxLabel,rfl⟩ := hinert.step hregister hopen h
    simp only [Card.deeds,if_pos hiface,List.append_nil,List.mem_append,not_or]
    refine ⟨by simp [uses],?_⟩
    unfold Card.receiveDeeds
    split
    · split <;> simp [emptySlot]
    · split <;> simp [passSlot,fillSlot]
    · simp

/-- What is known of the card then. -/
theorem Fits.late {stage : Stage} (hfits : Fits c stage) (hstage : stage.late) :
    Alive c ∧ c.iface.closed := by
  obtain rfl | rfl := hstage
  · exact ⟨hfits.1,hfits.2.1⟩
  · exact ⟨hfits.1,hfits.2.1⟩

/-- NAPI is there from the end of edunic_probe to netif_napi_del. -/
theorem napi_held (h : device.Reachable d) (hc : d.card = some c)
    (hstage : d.stage = .bound ∨ d.stage = .unregistered) : Open d.log .napi := by
  apply (device_books h .napi).1
  rw [Device.holding,hc]
  apply Finset.mem_union_left
  obtain hs | hs := hstage <;> rw [hs] <;> simp [Stage.holding]

/-- Then it is gone, and the workqueue is still there. -/
theorem napi_gone (h : device.Reachable d) (hc : d.card = some c) (hstage : d.stage.late) :
    Shut d.log .napi ∧ Open d.log .workqueue := by
  have hextra : .napi ∉ c.extras := fun hmem => absurd (extra_of_mem hmem) (by decide)
  have hheld : d.holding = core ∪ {.workqueue} ∪ c.extras := by
    rw [Device.holding,hc]
    obtain hs | hs := hstage <;> rw [hs] <;> rfl
  constructor
  · apply (device_books h .napi).2
    rw [hheld,Finset.mem_union,not_or]
    exact ⟨by decide,hextra⟩
  · apply (device_books h .workqueue).1
    rw [hheld]
    exact Finset.mem_union_left _ (by decide)

/-- A step of the card that asks NAPI finds it there, or comes late in edunic_remove. -/
theorem card_asks (h : device.Reachable d) (hc : d.card = some c) (hfits : Fits c d.stage)
    (hadmits : d.admits label = true) (hstep : c.step label = some e) {vectors : Bool}
    (hasks : .use .napi ∈ c.deeds label vectors) : Open d.log .napi ∨
      (Shut d.log .napi ∧ Open d.log .workqueue) ∧ ¬ d.Prompt (.card label vectors) := by
  have hlate : d.stage.late → ¬ d.Prompt (.card label vectors) := by
    intro hstage hprompt
    obtain ⟨halive,hclosed⟩ := hfits.late hstage
    have hopen : label ≠ .ndoOpen := by
      rintro rfl
      obtain hs | hs := hstage <;> simp [Device.admits,hs] at hadmits
    have hrequests := (napi_asked halive hclosed hopen hstep vectors).mp hasks
    rw [hprompt hstage c hc] at hrequests
    contradiction
  cases hstage : d.stage with
  | unbound => exact absurd hasks (early_silent hfits (.inl hstage) hadmits hstep vectors)
  | probing => exact absurd hasks (early_silent hfits (.inr hstage) hadmits hstep vectors)
  | bound => exact .inl (napi_held h hc (.inl hstage))
  | unregistered => exact .inl (napi_held h hc (.inr hstage))
  | napiDeleted => exact .inr ⟨napi_gone h hc (.inl hstage),hlate (.inl hstage)⟩
  | timerCancelled => exact .inr ⟨napi_gone h hc (.inr hstage),hlate (.inr hstage)⟩

/-- So does every step: the deeds before the request leave NAPI and the workqueue alone. -/
theorem step_asks (h : device.Reachable d) {l : DeviceLabel} (hstep : d.step l = some d') :
    ∃ deeds, d'.log = d.log ++ deeds ∧ UsedUnder (fun before => Open (d.log ++ before) .napi ∨
      (Shut (d.log ++ before) .napi ∧ Open (d.log ++ before) .workqueue) ∧ ¬ d.Prompt l)
      .napi deeds := by
  by_cases hl : ∀ label vectors, l ≠ .card label vectors
  · obtain ⟨deeds,hlog,hsilent⟩ := step_silent hstep hl
    exact ⟨deeds,hlog,.of_unused hsilent⟩
  · obtain ⟨label,vectors,rfl⟩ : ∃ label vectors, l = .card label vectors := by
      cases l <;> simp at hl ⊢
    obtain ⟨c,e,hc,hfits,hcard,hadmits,rfl⟩ := card_of_step (device_inv h) hstep
    refine ⟨_,rfl,fun before after hsplit => ?_⟩
    have hasks : .use .napi ∈ c.deeds label vectors := by simp [hsplit]
    have hminor := deeds_minor c label vectors
    rw [hsplit] at hminor
    obtain ⟨hacquire,hrelease⟩ := hminor.left.kept (r := .napi) rfl
    obtain ⟨hacquire',hrelease'⟩ := hminor.left.kept (r := .workqueue) rfl
    dsimp only
    rw [open_append hacquire hrelease,shut_append hacquire hrelease,
      open_append hacquire' hrelease']
    exact card_asks h hc hfits hadmits hcard hasks

/-- NAPI is asked while it is there, or in edunic_remove, where the workqueue still is. -/
theorem device_asks (h : device.Reachable d) : UsedUnder (fun log => Open log .napi ∨
    Shut log .napi ∧ Open log .workqueue) .napi d.log := by
  induction h with
  | init h =>
    obtain rfl := h
    exact .of_unused List.not_mem_nil
  | step hs _ hstep ih =>
    obtain ⟨deeds,hlog,hasks⟩ := step_asks hs hstep
    rw [hlog]
    exact ih.append (hasks.mono fun l hl => hl.imp_right And.left)

/-- Where edunic_remove is not interrupted late, NAPI is asked only while it is there. -/
theorem prompt_asks (h : device.ReachableUnder Device.Prompt d) :
    UsedUnder (fun log => Open log .napi) .napi d.log := by
  induction h with
  | init h =>
    obtain rfl := h
    exact .of_unused List.not_mem_nil
  | step hs hprompt hstep ih =>
    obtain ⟨deeds,hlog,hasks⟩ := step_asks hs.reachable hstep
    rw [hlog]
    exact ih.append (hasks.mono fun l hl => hl.resolve_right fun hlate => hlate.2 hprompt)

/-- A late request is out of order. -/
theorem late_request (h : device.Reachable d) {vectors : Bool}
    (hstep : d.step (.card label vectors) = some d') (hlate : ¬ d.Prompt (.card label vectors)) :
    ¬ InOrder Resource.needs d'.log := by
  intro horder
  obtain ⟨hstage,c,hc,hrequests⟩ : d.stage.late ∧ ∃ c, d.card = some c ∧
      c.requests label = true := by simpa [Device.Prompt] using hlate
  obtain ⟨c',e,hc',hfits,hcard,hadmits,rfl⟩ := card_of_step (device_inv h) hstep
  obtain rfl : c = c' := Option.some.inj (hc.symm.trans hc')
  obtain ⟨halive,hclosed⟩ := hfits.late hstage
  have hopen : label ≠ .ndoOpen := by
    rintro rfl
    contradiction
  have hasks := (napi_asked halive hclosed hopen hcard vectors).mpr hrequests
  obtain ⟨before,after,hsplit⟩ := List.append_of_mem hasks
  have hminor := deeds_minor c label vectors
  rw [hsplit] at hminor
  obtain ⟨hacquire,hrelease⟩ := hminor.left.kept (r := .napi) rfl
  have hlog : (d.note d.stage (some e) (c.deeds label vectors)).log =
      (d.log ++ before) ++ .use .napi :: after := by
    rw [List.append_assoc,← hsplit]
    rfl
  have hthere := horder.used _ _ _ hlog
  rw [open_append hacquire hrelease] at hthere
  exact (napi_gone h hc hstage).1.not_open hthere

/-- However often a device is bound, opened, closed and unbound, whatever call of edunic_probe or
edunic_open fails, and whatever the worker, the timer, the interrupt and the polls do meanwhile,
also while edunic_remove runs: nothing is got twice, nothing is touched that is not held, but for
requests to NAPI, nothing is given back while something needs it, and an unbound device holds
nothing and takes no step of the card. Requests to NAPI come while it is there, or between
netif_napi_del and destroy_workqueue, when it is disabled; without these all is in order. -/
theorem unbound_clean (h : device.Reachable d) :
    InOrderBut .napi Resource.needs d.log ∧
    UsedUnder (fun log => Open log .napi ∨ Shut log .napi ∧ Open log .workqueue) .napi d.log ∧
    (d.stage.late → ∀ c, d.card = some c → c.napi.schedulePrep.2 = false) ∧
    (device.ReachableUnder Device.Prompt d → InOrder Resource.needs d.log) ∧
    (d.stage = .unbound → (∀ r, Shut d.log r) ∧ (∀ c, d.card = some c → TxEnded c.tx ∧ RxEnded c.rx) ∧
      ∀ label vectors, d.step (.card label vectors) = none) := by
  have hbut : InOrderBut .napi Resource.needs d.log := (Inventory.inOrder (device_accounts h)).but
  have hi := device_inv h
  refine ⟨hbut,device_asks h,?_,fun hprompt => hbut.inOrder (prompt_asks hprompt),?_⟩
  · intro hstage c hc
    obtain ⟨halive,hclosed⟩ := (hi.fits c hc).late hstage
    exact halive.no_schedule (.inr hclosed)
  · intro hstage
    refine ⟨fun r => ?_,fun c hc => ?_,fun label vectors => ?_⟩
    · apply (device_books h r).2
      rw [hi.unbound hstage]
      exact Finset.notMem_empty r
    · have hended := hi.fits c hc
      rw [hstage] at hended
      exact ⟨hended.tx,hended.rx⟩
    · by_contra hstep
      obtain ⟨d',hstep⟩ := Option.ne_none_iff_exists'.mp hstep
      obtain ⟨c,e,hc,hfits,hcard,hadmits,rfl⟩ := card_of_step hi hstep
      have hregister : label ≠ .register := by
        rintro rfl
        contradiction
      have hopen : label ≠ .ndoOpen := by
        rintro rfl
        simp [Device.admits,hstage] at hadmits
      rw [hstage] at hfits
      rw [Ended.refuses hfits hregister hopen] at hcard
      contradiction

/-- An edunic_probe in which everything succeeds. -/
def probeOk : ProbeAnswers := ⟨true,true,true,true,true,true,true,true,true,true,3,5,7,9⟩

/-- A device is bound and opened and sends a packet; it is closed and the link timer and the
worker run in the middle of edunic_remove. A second edunic_probe gets no receive descriptors. -/
def boundTwice : List DeviceLabel :=
  [.probe probeOk,.card (.receive (.refill (some ⟨1,[]⟩) (some 4096))) true,
    .card (.receive (.refill none none)) true,.card (.receive .announce) true,
    .finishProbe true true,.card .ndoOpen true,.card (.ndo true) true,.card (.ndo true) true,
    .card (.ndo true) true,.card (.ndo true) true,.card (.xmit ⟨10,[1,2]⟩ (some 64)) true,
    .card .ndoStop true,.card (.ndo true) true,.card (.ndo true) true,.card (.ndo true) true,
    .card (.ndo true) true,.card (.ndo true) true,.unregisterNetdev,.card .workerStart true,
    .napiDel,.card (.workerRound true) true,.card .linkTimer true,.cancelTimer,
    .card .workerEnd true,.teardown,.probe { probeOk with rxDesc := false }]

theorem unbound_clean_run : ∃ d before after, device.Reachable d ∧ d.stage = .unbound ∧
    d.log = before ++ .use .napi :: after ∧ Shut before .napi ∧ Open before .workqueue ∧
    InOrderBut .napi Resource.needs d.log ∧ (∀ r, Shut d.log r) ∧
    ∃ c, d.card = some c ∧ accepted c.tx.log = [⟨10,[1,2]⟩] ∧ TxEnded c.tx ∧ RxEnded c.rx := by
  have hview : (device.run boundTwice ⟨.unbound,none,[]⟩).map
      (fun d => (d.stage,d.card.map (fun c => accepted c.tx.log))) =
        some (.unbound,some [⟨10,[1,2]⟩]) := by
    decide +kernel
  have hlate : (device.run boundTwice ⟨.unbound,none,[]⟩).map (fun d => (d.log[79]?,
      (d.log.take 79).count (.acquire .napi),(d.log.take 79).count (.release .napi))) =
        some (some (.use .napi),1,1) := by
    decide +kernel
  obtain ⟨d,hrun,hout⟩ := Option.map_eq_some_iff.mp hview
  rw [hrun,Option.map_some] at hlate
  obtain ⟨hat,hcounts⟩ := Prod.mk.inj (Option.some.inj hlate)
  obtain ⟨hgot,hback⟩ := Prod.mk.inj hcounts
  obtain ⟨hstage,hcard⟩ := Prod.mk.inj hout
  obtain ⟨c,hc,haccepted⟩ := Option.map_eq_some_iff.mp hcard
  have hreach : device.Reachable d := Machine.Reachable.of_run (.init rfl) hrun
  obtain ⟨horder,hasks,-,-,hend⟩ := unbound_clean hreach
  obtain ⟨hshut,hended,-⟩ := hend hstage
  obtain ⟨hlt,hat⟩ := List.getElem?_eq_some_iff.mp hat
  have hsplit : d.log = d.log.take 79 ++ .use .napi :: d.log.drop 80 := by
    rw [← hat,← List.drop_eq_getElem_cons hlt,List.take_append_drop]
  have hgone : Shut (d.log.take 79) .napi := hgot.trans hback.symm
  have hqueue := ((hasks _ _ hsplit).resolve_left hgone.not_open).2
  exact ⟨d,_,_,hreach,hstage,hsplit,hgone,hqueue,horder,hshut,c,hc,haccepted,hended c hc⟩

end NetLab.Edunic
