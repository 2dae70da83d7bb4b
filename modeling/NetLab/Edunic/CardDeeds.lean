import NetLab.Edunic.Holdings
import NetLab.Edunic.RxSound

/-! What the card's steps do with what they hold: nothing is touched that is not there, a slot is
filled when it has no buffer and emptied when it has one, and freeing the rings empties every
slot. -/
namespace NetLab.Edunic
open NetLab.Ring

/-! ### The transmit half -/

section Transmit

variable {base : Finset Resource} {c : Card} {a tx : Adapter} {gone queue : List TxBuf} {d i : ℕ}

/-- The descriptors, the indices, the registers and the counters are no slots. -/
theorem occupied_of_buf {b : Adapter} (h : b.txRing.buf = a.txRing.buf) :
    b.occupied = a.occupied := by
  unfold Adapter.occupied
  rw [h]

theorem occupied_post (hlt : a.txRing.nextToUse < ringSize) (skb : SkBuff) (dma : UInt64) :
    (a.post skb dma).occupied = insert a.txRing.nextToUse a.occupied := by
  apply inUse_insert hlt
  · simp [Adapter.post]
  · intro k hk
    simp [Adapter.post,hk]

theorem occupied_reclaim (a : Adapter) (i : ℕ) : (a.reclaim i).occupied = a.occupied.erase i := by
  apply inUse_erase
  · simp [Adapter.reclaim]
  · intro k hk
    simp [Adapter.reclaim,hk]

theorem Loaded.not_occupied (h : Loaded a queue d) : a.txRing.nextToUse ∉ a.occupied := by
  rw [Adapter.occupied,mem_inUse]
  exact fun hmem => hmem.2 h.free_slot

/-- The packet the worker stands at is in its slot. -/
theorem Loaded.head_occupied (h : Loaded a queue d) {w : TxWorker} (hw : a.txWorker = some w)
    (hne : w.head ≠ w.tail) : w.head ∈ a.occupied := by
  obtain ⟨hd,hbuf,-⟩ := h.worker_slot hw hne
  have hskb := h.skbs _ (List.getElem_mem hd)
  rw [← hbuf] at hskb
  refine mem_inUse.mpr ⟨?_,hskb⟩
  have hengine := h.engine
  rw [hw] at hengine
  cases hengine with
  | running ahead shown bound head tail unsent kick =>
    rw [head]
    exact cell_lt ringSize_pos

/-- edunic_clean_tx_irq releases what it takes from the ring; induction on its rounds, along
which the queue gets shorter. -/
theorem cleanTx_leads {fuel j packets total : ℕ} {bytes sum : UInt32} (hb : Plain base)
    (h : Loaded (a.cleanedTo i) queue d) (hworking : a.working = c.tx.working)
    (hloop : a.cleanLoop fuel i packets bytes = some (tx,j,total,sum)) :
    Leads base (Card.extras { c with tx := a }) (Card.cleanTxDeeds fuel a i)
        (Card.extras { c with tx }) ∧ tx.working = c.tx.working := by
  induction fuel generalizing a i queue d packets bytes with
  | zero => contradiction
  | succ fuel ih =>
    unfold Adapter.cleanLoop at hloop
    unfold Card.cleanTxDeeds
    by_cases hgo : i ≠ a.txRing.nextToUse ∧ (a.txRing.desc i).done = true
    · rw [if_pos hgo] at hloop ⊢
      cases d with
      | zero => exact absurd hgo h.cleanLoop_stop
      | succ d =>
        cases queue with
        | nil => exact absurd h.done_le (by simp)
        | cons b queue =>
          have hbuf : a.txRing.buf i = b := h.slots.front h.clean_lt
          have hin : i ∈ a.occupied := by
            refine mem_inUse.mpr ⟨h.clean_lt,?_⟩
            rw [hbuf]
            exact h.skbs b List.mem_cons_self
          have hempty : Leads base (Card.extras { c with tx := a }) (emptySlot .tx i)
              (Card.extras { c with tx := a.reclaim i }) := by
            have hextras : ((Card.extras { c with tx := a }).erase (.dma .tx i)).erase (.skb .tx i) =
                Card.extras { c with tx := a.reclaim i } :=
              extras_empty rfl rfl (occupied_tx (occupied_reclaim a i) rfl)
            rw [← hextras]
            exact .empty hb (mem_extras_skb.mpr hin) (mem_extras_dma.mpr hin)
          obtain ⟨hrest,hend⟩ := ih h.reclaim hworking hloop
          exact ⟨hempty.append hrest,hend⟩
    · rw [if_neg hgo] at hloop ⊢
      obtain ⟨rfl,-⟩ := Prod.mk.inj (Option.some.inj hloop)
      exact ⟨.nil,hworking⟩

end Transmit

/-! ### The receive half -/

section Receive

variable {base : Finset Resource} {c : Card} {a rx : RxAdapter} {start shown fresh missed : ℕ}
variable {filled : List Filled} {waiting : List Waiting} {gone : List (ℕ × UInt64)}

theorem occupied_of_rxBuf {b : RxAdapter} (h : b.rxRing.buf = a.rxRing.buf) :
    b.occupied = a.occupied := by
  unfold RxAdapter.occupied
  rw [h]

/-- The device writes into a buffer and leaves it where it is. -/
theorem occupied_deliver (a : RxAdapter) (frame : List UInt8) :
    (a.hwDeliverRxFrame frame).occupied = a.occupied := by
  unfold RxAdapter.hwDeliverRxFrame
  by_cases hfull : a.rdh = a.rdt
  · rw [if_pos hfull]
    exact occupied_of_rxBuf rfl
  · rw [if_neg hfull]
    apply inUse_congr
    intro k
    by_cases hk : k = a.rdh
    · subst hk
      simp [RxRing.setSlot]
    · simp [RxRing.setSlot,hk]

theorem occupied_harvest (a : RxAdapter) (i workDone cleanedCount : ℕ) (budget : ℤ) :
    (a.harvest i workDone cleanedCount budget).occupied = a.occupied.erase i := by
  apply inUse_erase
  · simp [RxAdapter.harvest,RxRing.setSlot]
  · intro k hk
    simp [RxAdapter.harvest,RxRing.setSlot,hk]

theorem occupied_posted {i : ℕ} (hi : i < ringSize) (left posted : ℕ) (caller : RxCaller)
    (skb : SkBuff) (dma : UInt64) :
    (a.refill i left posted caller (some skb) (some dma)).occupied = insert i a.occupied := by
  apply inUse_insert hi
  · simp [RxAdapter.refill,RxRing.setSlot]
  · intro k hk
    simp [RxAdapter.refill,RxRing.setSlot,RxAdapter.note,hk]

/-- The device writes where the driver has put a buffer. -/
theorem RxState.rdh_occupied (h : RxState a start filled waiting shown fresh missed gone)
    (hne : a.rdh ≠ a.rdt) : a.rdh ∈ a.occupied := by
  obtain ⟨hlt,-,skb,hskb,-⟩ := h.device hne
  exact mem_inUse.mpr ⟨hlt,by simp [hskb]⟩

theorem deliver_leads (hb : Firm base)
    (h : RxState c.rx start filled waiting shown fresh missed gone) :
    Leads base c.extras (Card.deliverDeeds c.rx) c.extras := by
  unfold Card.deliverDeeds
  refine (hb.uses (by simp [core])).append ?_
  by_cases hfull : c.rx.rdh = c.rx.rdt
  · rw [if_pos hfull]
    exact .nil
  · rw [if_neg hfull]
    have hslot : c.rx.rdh ∈ c.occupied .rx := h.rdh_occupied hfull
    exact hb.uses (by simp [core,hslot])

/-- The driver's receive code takes buffers from the slots that have one and puts them into slots
that have none. -/
theorem receive_leads {label : RxLabel} (hb : Firm base)
    (h : RxState c.rx start filled waiting shown fresh missed gone) (hdriven : label.driven = true)
    (hstep : c.rx.rxStep label = some rx) :
    Leads base c.extras (Card.receiveDeeds c.rx label) (Card.extras { c with rx }) := by
  have hcases := (rxStep_cases hstep).2
  have hsame : rx.rxRing.buf = c.rx.rxRing.buf → c.extras = Card.extras { c with rx } :=
    fun hbuf => extras_same rfl rfl (occupied_eq rfl (occupied_of_rxBuf hbuf))
  cases label with
  | deliver frame => contradiction
  | clean budget => contradiction
  | free => contradiction
  | harvest =>
    obtain ⟨i,w,k,budget,hd,hgo,rfl⟩ := hcases
    obtain ⟨hlt,hskb,-⟩ := h.harvest_filled hd hgo
    have hslot : i ∈ c.occupied .rx := mem_inUse.mpr ⟨hlt,hskb⟩
    have hextras : (c.extras.erase (.dma .rx i)).erase (.skb .rx i) =
        Card.extras { c with rx := c.rx.harvest i w k budget } :=
      extras_empty rfl rfl (occupied_rx rfl (occupied_harvest c.rx i w k budget))
    simp only [Card.receiveDeeds,hd]
    rw [← hextras]
    exact .empty hb.plain (mem_extras_skb.mpr hslot) (mem_extras_dma.mpr hslot)
  | harvested =>
    obtain ⟨i,w,k,budget,hd,-,rfl⟩ := hcases
    have hbuf : (c.rx.harvested i w k).rxRing.buf = c.rx.rxRing.buf := by
      unfold RxAdapter.harvested
      dsimp only
      split <;> rfl
    rw [← hsame hbuf]
    exact .nil
  | refill skb mapping =>
    obtain ⟨i,left,posted,caller,hd,rfl⟩ := hcases
    obtain ⟨hlt,hnone⟩ := h.post_vacant hd
    have hslot : i ∉ c.occupied .rx := fun hmem => (mem_inUse.mp hmem).2 hnone
    have hskb : Resource.skb .rx i ∉ c.extras := mt mem_extras_skb.mp hslot
    have hdma : Resource.dma .rx i ∉ c.extras := mt mem_extras_dma.mp hslot
    cases skb with
    | none =>
      rw [← hsame rfl]
      simp only [Card.receiveDeeds,hd]
      exact .nil
    | some skb =>
      cases mapping with
      | none =>
        rw [← hsame rfl]
        simp only [Card.receiveDeeds,hd]
        exact .pass hb hskb hdma
      | some dma =>
        have hextras : insert (.dma .rx i) (insert (.skb .rx i) c.extras) =
            Card.extras { c with rx := c.rx.refill i left posted caller (some skb) (some dma) } :=
          extras_fill rfl rfl (occupied_rx rfl (occupied_posted hlt left posted caller skb dma))
        rw [← hextras]
        simp only [Card.receiveDeeds,hd]
        exact .fill hb hskb hdma
  | announce =>
    obtain ⟨i,posted,caller,-,rfl⟩ := hcases
    have hbuf : (c.rx.announce i posted caller).rxRing.buf = c.rx.rxRing.buf := by
      unfold RxAdapter.announce
      cases caller <;> dsimp only <;> split <;> rfl
    rw [← hsame hbuf]
    exact .nil

end Receive

/-! ### The steps of the card -/

section Steps

variable {base X : Finset Resource} {c e : Card} {queue : List TxBuf} {d : ℕ} {w : TxWorker}

/-- Interrupt handling uses the registers, and asks NAPI. -/
theorem intr_leads (hb : Firm base) (c : Card) : Leads base X c.intrDeeds X := by
  unfold Card.intrDeeds
  refine (hb.uses (by simp [core])).append ?_
  by_cases hdata : c.icr.rx ∨ c.icr.tx
  · rw [if_pos hdata]
    change Leads base X (uses [.napi]) X
    exact .uses (by simp)
  · rw [if_neg hdata]
    exact .nil

/-- edunic_hw_kick_tx queues the work item if it is not queued or running. -/
theorem kick_leads (hb : Firm base) (hworkqueue : .workqueue ∈ base) (hwork : e.tx.working = true)
    (htimer : e.timerArmed = c.timerArmed) (hslots : e.occupied = c.occupied) :
    Leads base c.extras [if c.tx.working then .use .work else .acquire .work] e.extras := by
  by_cases hworking : c.tx.working = true
  · rw [if_pos hworking,← extras_same htimer (hwork.trans hworking.symm) hslots]
    change Leads base c.extras (uses [.work]) c.extras
    exact hb.uses (by simp [hworking])
  · rw [if_neg hworking,← extras_work htimer hwork hslots]
    refine .gain hb.plain rfl (mt mem_extras_work.mp hworking) ?_
    simp [Resource.needs,hworkqueue]

/-- A packet that is accepted goes into the free slot, or is freed. -/
theorem xmit_leads (hb : Firm base) (h : Loaded c.tx queue d) (hregistration : .registration ∈ base)
    (hworkqueue : .workqueue ∈ base) (skb : SkBuff) (mapping : Option UInt64) :
    Leads base c.extras (Card.xmitDeeds c.tx mapping)
      (Card.extras { c with tx := (c.tx.startXmit skb mapping).1 }) := by
  have hslot : c.tx.txRing.nextToUse ∉ c.occupied .tx := h.not_occupied
  have hskb : Resource.skb .tx c.tx.txRing.nextToUse ∉ c.extras := mt mem_extras_skb.mp hslot
  have hdma : Resource.dma .tx c.tx.txRing.nextToUse ∉ c.extras := mt mem_extras_dma.mp hslot
  unfold Card.xmitDeeds Adapter.startXmit
  rw [h.maybeStop]
  refine (hb.uses (by simp [core,hregistration])).append ?_
  by_cases hroom : queue.length+1 < ringSize
  · rw [if_pos hroom]
    cases mapping with
    | none => exact .pass hb hskb hdma
    | some dma =>
      obtain ⟨stopped,hstop⟩ := maybeStopTx_fst
        ((c.tx.note [.map skb dma]).post skb dma).ringDoorbell.hwKickTx txDescPerPkt
      have hfill : Leads base c.extras (fillSlot .tx c.tx.txRing.nextToUse)
          (Card.extras { c with tx := c.tx.post skb dma }) := by
        have hextras : insert (.dma .tx c.tx.txRing.nextToUse)
            (insert (.skb .tx c.tx.txRing.nextToUse) c.extras) =
            Card.extras { c with tx := c.tx.post skb dma } :=
          extras_fill rfl rfl (occupied_tx (occupied_post h.use_lt skb dma) rfl)
        rw [← hextras]
        exact .fill hb hskb hdma
      dsimp only
      rw [hstop]
      refine (hfill.append (hb.uses (by simp [core,hworkqueue]))).append ?_
      exact kick_leads hb hworkqueue rfl rfl (occupied_eq (occupied_of_buf rfl) rfl)
  · rw [if_neg hroom]
    exact .nil

/-- The worker reads the slot it stands at, which has a packet, and hands the copy on. -/
theorem workerRound_leads (hb : Firm base) (h : Loaded c.tx queue d) (hreceives : c.Receives)
    (hw : c.tx.txWorker = some w) (hne : w.head ≠ w.tail) (kmallocOk : Bool) :
    Leads base c.extras (c.workerRoundDeeds w kmallocOk) (c.hwTxWorkerRound w kmallocOk).extras := by
  obtain ⟨start,filled,waiting,shown,fresh,missed,gone,hs⟩ := hreceives
  have hworking : c.tx.working = true := by simp [Adapter.working,hw]
  have hslot : w.head ∈ c.occupied .tx := h.head_occupied hw hne
  have hextras : c.extras = (c.hwTxWorkerRound w kmallocOk).extras := by
    obtain ⟨rx,icr,hround,-,hrx⟩ := workerRound_eq c w kmallocOk
    have hrxSlots : rx.occupied = c.rx.occupied := by
      obtain ⟨-,rfl⟩ | ⟨frame,-,rfl⟩ := hrx
      · rfl
      · exact occupied_deliver c.rx frame
    rw [hround]
    refine extras_same rfl ?_ (occupied_eq (occupied_of_buf rfl) hrxSlots)
    rw [hworking]
    simp [Adapter.working,Adapter.hwTxWorkerRound]
  rw [← hextras]
  unfold Card.workerRoundDeeds
  refine Leads.append (Y := c.extras) ((hb.uses (by simp [core,hworking])).append ?_) ?_
  · split
    · change Leads base c.extras (uses [.dma .tx w.head]) c.extras
      exact hb.uses (by simp [hslot])
    · exact .nil
  · cases c.tx.frameCopy w kmallocOk with
    | none => exact .nil
    | some frame =>
      have hcopy : Leads base c.extras (uses [.skb .tx w.head]) c.extras :=
        hb.uses (by simp [hslot])
      exact hcopy.append (deliver_leads hb hs)

/-- The work item is done with unless it has been queued again. -/
theorem workerEnd_leads (hb : Firm base) (hw : c.tx.txWorker = some w) :
    Leads base c.extras (c.workerEndDeeds w) (c.hwTxWorkerEnd w).extras := by
  have hworking : c.tx.working = true := by simp [Adapter.working,hw]
  have htimer : (c.hwTxWorkerEnd w).timerArmed = c.timerArmed := by
    rw [workerEnd_eq]
    by_cases hsent : w.sentAny
    · rw [if_pos hsent,intr_timerArmed]
    · rw [if_neg hsent]
  have hend : (c.hwTxWorkerEnd w).tx.working = c.tx.workPending ∧
      (c.hwTxWorkerEnd w).tx.occupied = c.tx.occupied := by
    rw [workerEnd_tx]
    unfold Adapter.hwTxWorkerEnd
    by_cases hsent : w.sentAny = true
    · rw [if_pos hsent]
      exact ⟨by simp [Adapter.working,Adapter.note],occupied_of_buf rfl⟩
    · rw [if_neg hsent]
      exact ⟨by simp [Adapter.working],occupied_of_buf rfl⟩
  have hslots : (c.hwTxWorkerEnd w).occupied = c.occupied :=
    occupied_eq hend.2 (by rw [workerEnd_rx])
  unfold Card.workerEndDeeds
  refine Leads.append (Y := c.extras) ((hb.uses (by simp [core,hworking])).append ?_) ?_
  · split
    · have hregisters : Leads base c.extras (uses [.mapping]) c.extras :=
        hb.uses (by simp [core])
      exact hregisters.append (intr_leads hb _)
    · exact .nil
  · cases hpending : c.tx.workPending with
    | true =>
      rw [if_pos rfl,extras_same htimer (by rw [hend.1,hpending,hworking]) hslots]
      exact .nil
    | false =>
      rw [if_neg Bool.false_ne_true,← extras_workDone htimer (by rw [hend.1,hpending]) hslots]
      exact .lose hb.plain rfl (mem_extras_work.mpr hworking) (by simp)

/-- A poll works on the rings, and takes done packets from one of them. -/
theorem poll_leads (hb : Firm base) (h : Loaded c.tx queue d) (hstep : c.pollStep = some e) :
    Leads base c.extras c.pollDeeds e.extras := by
  have hpoll := pollStep_cases hstep
  unfold Card.pollDeeds
  refine (hb.uses (by simp [core])).append ?_
  cases hp : c.poll with
  | idle =>
    rw [hp] at hpoll
    contradiction
  | cleanTx budget =>
    rw [hp] at hpoll
    obtain ⟨tx,i,packets,bytes,hloop,hend⟩ := hpoll
    have hstart : Loaded (c.tx.cleanedTo c.tx.txRing.nextToClean) queue d := h
    obtain ⟨hleads,hworking⟩ := cleanTx_leads hb.plain hstart rfl hloop
    have hextras : Card.extras { c with tx } = e.extras := by
      obtain ⟨-,rfl⟩ | ⟨-,rfl⟩ := hend <;>
        exact extras_same rfl rfl (occupied_eq (occupied_of_buf rfl) rfl)
    rw [← hextras]
    exact hleads
  | flag budget =>
    rw [hp] at hpoll
    obtain ⟨-,rfl⟩ | ⟨-,rfl⟩ := hpoll <;> exact .nil
  | wake budget =>
    rw [hp] at hpoll
    subst hpoll
    exact .nil
  | cleanRx budget =>
    rw [hp] at hpoll
    obtain ⟨rx,hrx,rfl⟩ := hpoll
    obtain ⟨-,w,-,rfl⟩ := rxStep_cases hrx
    exact .nil
  | receive budget =>
    rw [hp] at hpoll
    obtain ⟨workDone,-,⟨-,rfl⟩ | ⟨-,rfl⟩⟩ := hpoll <;> exact .nil
  | completeDone workDone =>
    rw [hp] at hpoll
    obtain ⟨-,rfl⟩ | ⟨-,rfl⟩ := hpoll <;> exact .nil

/-- The rounds of the receive code, in edunic_probe or in a poll. -/
theorem receiveStep_leads {label : RxLabel} (hb : Firm base) (hreceives : c.Receives)
    (h : c.step (.receive label) = some e) (vectors : Bool) :
    Leads base c.extras (c.deeds (.receive label) vectors) e.extras := by
  obtain ⟨start,filled,waiting,shown,fresh,missed,gone,hs⟩ := hreceives
  obtain ⟨⟨hdriven,-⟩,rx,hstep,rfl⟩ := card_cases h
  simp only [Card.deeds]
  refine Leads.append (Y := c.extras) ((hb.uses (by simp [core])).append ?_)
    (receive_leads hb hs hdriven hstep)
  by_cases hf : c.iface = .probing
  · rw [if_pos hf]
    exact .nil
  · rw [if_neg hf]
    change Leads base c.extras (uses [.napi]) c.extras
    exact .uses (by simp)

/-- Calls and statements of edunic_open and edunic_stop, and the end of edunic_probe. -/
def CardLabel.administrative : CardLabel → Bool
  | .register | .ndoOpen | .ndoStop | .ndo _ => true
  | _ => false

/-- A step that is not administrative touches only what is there, and keeps the books of what it
gets and gives back. -/
theorem work_leads {label : CardLabel} (hb : Firm base) (hworkqueue : .workqueue ∈ base)
    (hregistration : c.iface = .up → .registration ∈ base)
    (hirq : c.irqRequested = true → .irq ∈ base) (htransmits : c.Transmits)
    (hreceives : c.Receives) (hlabel : label.administrative = false) (h : c.step label = some e)
    (vectors : Bool) : Leads base c.extras (c.deeds label vectors) e.extras := by
  obtain ⟨-,queue,d,hload,-⟩ := htransmits
  have hcases := card_cases h
  cases label with
  | register => contradiction
  | ndoOpen => contradiction
  | ndoStop => contradiction
  | ndo ok => contradiction
  | xmit skb mapping =>
    obtain ⟨hup,rfl⟩ := hcases
    exact xmit_leads hb hload (hregistration hup) hworkqueue skb mapping
  | workerStart =>
    obtain ⟨⟨hpending,-⟩,rfl⟩ := hcases
    have hworking : c.tx.working = true := by simp [Adapter.working,hpending]
    have hextras : c.extras = Card.extras { c with tx := c.tx.hwTxWorkerStart } :=
      extras_same rfl (by rw [hworking]; rfl) (occupied_eq (occupied_of_buf rfl) rfl)
    rw [← hextras]
    exact hb.uses (by simp [core,hworking])
  | workerRound kmallocOk =>
    obtain ⟨w,hw,hne,rfl⟩ := hcases
    simp only [Card.deeds,hw]
    exact workerRound_leads hb hload hreceives hw hne kmallocOk
  | workerEnd =>
    obtain ⟨w,hw,-,rfl⟩ := hcases
    simp only [Card.deeds,hw]
    exact workerEnd_leads hb hw
  | interrupt =>
    obtain ⟨hrequested,rfl⟩ := hcases
    have hextras : c.extras = c.intr.extras :=
      extras_same (intr_timerArmed c) (by rw [intr_tx])
        (occupied_eq (by rw [intr_tx]) (by rw [intr_rx]))
    have hline : Leads base c.extras (uses [.irq]) c.extras := hb.uses (by simp [hirq hrequested])
    rw [← hextras]
    exact hline.append (intr_leads hb c)
  | linkTimer =>
    obtain ⟨harmed,rfl⟩ := hcases
    have hextras : c.extras.erase .linkTimer = c.linkTimerFn.extras := by
      unfold Card.linkTimerFn
      exact extras_disarmed (intr_timerArmed _) (by rw [intr_tx])
        (occupied_eq (by rw [intr_tx]) (by rw [intr_rx]))
    have hexpiry : Leads base c.extras (uses [.linkTimer,.netdev,.mapping]) c.extras :=
      hb.uses (by simp [core,harmed])
    rw [← hextras]
    refine (hexpiry.append (intr_leads hb _)).append ?_
    exact .lose hb.plain rfl (mem_extras_timer.mpr harmed) (by simp)
  | napiPoll budget =>
    obtain ⟨-,rfl⟩ := hcases
    change Leads base c.extras (uses [.napi]) c.extras
    exact .uses (by simp)
  | poll => exact poll_leads hb hload hcases
  | receive rxLabel => exact receiveStep_leads hb hreceives h vectors
  | unmask =>
    obtain ⟨-,rfl⟩ := hcases
    exact hb.uses (by simp [core])

end Steps

/-! ### Giving back the rings -/

section Free

variable {base X : Finset Resource} {c : Card}

/-- The loop of edunic_free_tx_resources. -/
theorem freeTx_leads (hb : Plain base) (hcount : c.tx.txRing.count = ringSize)
    (hX : slots .tx (c.occupied .tx) ⊆ X) :
    Leads base X ((List.range c.tx.txRing.count).flatMap (freeTxSlot c.tx.txRing))
      (X \ slots .tx (c.occupied .tx)) := by
  rw [hcount]
  apply Leads.sweep hb
  · intro k
    unfold freeTxSlot
    cases (c.tx.txRing.buf k).skb with
    | none => rfl
    | some skb => rfl
  · intro k hk hskb
    have hslot : k ∈ c.occupied .tx := mem_inUse.mpr ⟨hk,hskb⟩
    exact ⟨hX (by simp [hslot]),hX (by simp [hslot])⟩

/-- The loop of edunic_free_rx_resources. -/
theorem freeRx_leads (hb : Plain base) (hcount : c.rx.rxRing.count = ringSize)
    (hX : slots .rx (c.occupied .rx) ⊆ X) :
    Leads base X ((List.range c.rx.rxRing.count).flatMap (freeRxSlot c.rx.rxRing))
      (X \ slots .rx (c.occupied .rx)) := by
  rw [hcount]
  apply Leads.sweep hb
  · intro k
    unfold freeRxSlot
    cases (c.rx.rxRing.buf k).skb with
    | none => rfl
    | some skb => rfl
  · intro k hk hskb
    have hslot : k ∈ c.occupied .rx := mem_inUse.mpr ⟨hk,hskb⟩
    exact ⟨hX (by simp [hslot]),hX (by simp [hslot])⟩

/-- Freeing the ring leaves the work item and the worker alone. -/
theorem freeTxResources_work (a : Adapter) : a.freeTxResources.workPending = a.workPending ∧
    a.freeTxResources.txWorker = a.txWorker := by
  have hslot : ∀ (b : Adapter) k, (b.freeSlot k).workPending = b.workPending ∧
      (b.freeSlot k).txWorker = b.txWorker := by
    intro b k
    cases hskb : (b.txRing.buf k).skb <;> simp [Adapter.freeSlot,Adapter.note,hskb]
  have hall : ∀ (ks : List ℕ) (b : Adapter), (ks.foldl Adapter.freeSlot b).workPending =
      b.workPending ∧ (ks.foldl Adapter.freeSlot b).txWorker = b.txWorker := by
    intro ks
    induction ks with
    | nil => exact fun b => ⟨rfl,rfl⟩
    | cons k ks ih =>
      intro b
      obtain ⟨hpending,hworker⟩ := ih (b.freeSlot k)
      exact ⟨hpending.trans (hslot b k).1,hworker.trans (hslot b k).2⟩
  unfold Adapter.freeTxResources
  by_cases halloc : a.txRing.allocated = true
  · rw [if_pos halloc]
    exact hall _ a
  · rw [if_neg halloc]
    exact ⟨rfl,rfl⟩

theorem slots_disjoint (s t : Finset ℕ) : Disjoint (slots .tx s) (slots .rx t) := by
  apply Finset.disjoint_left.mpr
  intro r hr
  cases r with
  | skb half k =>
    obtain ⟨rfl,-⟩ := mem_slots_skb.mp hr
    simp
  | dma half k =>
    obtain ⟨rfl,-⟩ := mem_slots_dma.mp hr
    simp
  | _ => simp [slots] at hr

/-- The net_device and the registers, with and without the transmit ring. -/
def lowest : Finset Resource := {.device,.regions,.mapping,.netdev}

def lower : Finset Resource := lowest ∪ {.txDesc,.txBuf}

/-- edunic_free_rx_resources and edunic_free_tx_resources give back both rings. -/
theorem freeRings_performs (htx : c.tx.txRing.count = ringSize)
    (hrx : c.rx.rxRing.count = ringSize) :
    Performs (core ∪ (slots .tx (c.occupied .tx) ∪ slots .rx (c.occupied .rx)))
      (freeRxDeeds c.rx.rxRing ++ freeTxDeeds c.tx.txRing) lowest := by
  have hsplit : (slots .tx (c.occupied .tx) ∪ slots .rx (c.occupied .rx)) \
      slots .rx (c.occupied .rx) = slots .tx (c.occupied .tx) := by
    rw [Finset.union_sdiff_right]
    exact Finset.sdiff_eq_self_of_disjoint (slots_disjoint _ _)
  have hrxSlots : Leads core (slots .tx (c.occupied .tx) ∪ slots .rx (c.occupied .rx)) _ _ :=
    freeRx_leads (by decide) hrx Finset.subset_union_right
  rw [hsplit] at hrxSlots
  have hrxRing : Performs (core ∪ slots .tx (c.occupied .tx)) [.release .rxBuf,.release .rxDesc]
      (lower ∪ slots .tx (c.occupied .tx)) :=
    Performs.framed (by decide) (fun _ => extra_of_mem_slots) slots_stand (by decide) (by decide)
  have htxSlots : Leads lower (slots .tx (c.occupied .tx)) _ _ :=
    freeTx_leads (by decide) htx subset_rfl
  rw [Finset.sdiff_self] at htxSlots
  have htxRing : Performs (lower ∪ ∅) [.release .txBuf,.release .txDesc] lowest := by decide
  exact (Performs.append hrxSlots hrxRing).append (Performs.append htxSlots htxRing)

end Free

/-! ### What the steps of the card leave alone -/

section Minor

variable {c e : Card} {l m : Deeds} {half : Half} {k : ℕ} {r : Resource}

/-- A use, or something done with an extra, the vector or the interrupt. -/
def minor : Deed Resource → Bool
  | .use _ => true
  | .acquire r | .release r => r.extra || r = .vectors || r = .irq

def Minor (l : Deeds) : Prop := ∀ deed ∈ l, minor deed = true

theorem Minor.nil : Minor [] := fun _ h => absurd h List.not_mem_nil

theorem Minor.append (hl : Minor l) (hm : Minor m) : Minor (l ++ m) := by
  intro deed hdeed
  exact (List.mem_append.mp hdeed).elim (hl deed) (hm deed)

theorem Minor.left (h : Minor (l ++ m)) : Minor l := fun deed hdeed =>
  h deed (List.mem_append_left m hdeed)

theorem Minor.cons {deed : Deed Resource} (h : minor deed = true) (hl : Minor l) :
    Minor (deed::l) := List.forall_mem_cons.mpr ⟨h,hl⟩

theorem Minor.uses (rs : List Resource) : Minor (uses rs) := by
  intro deed hdeed
  obtain ⟨r,-,rfl⟩ := List.mem_map.mp hdeed
  rfl

theorem Minor.fillSlot : Minor (fillSlot half k) := .cons rfl (.cons rfl .nil)
theorem Minor.passSlot : Minor (passSlot half k) := .cons rfl (.cons rfl .nil)
theorem Minor.emptySlot : Minor (emptySlot half k) := .cons rfl (.cons rfl .nil)

/-- What is not minor stays as it is. -/
theorem Minor.kept (h : Minor l) (hr : minor (.release r) = false) :
    .acquire r ∉ l ∧ .release r ∉ l := by
  have hsame : minor (.acquire r) = minor (.release r) := rfl
  constructor
  · intro hmem
    have hminor := h _ hmem
    rw [hsame,hr] at hminor
    contradiction
  · intro hmem
    have hminor := h _ hmem
    rw [hr] at hminor
    contradiction

theorem intr_minor (c : Card) : Minor c.intrDeeds := by
  refine (Minor.uses _).append ?_
  split
  · exact .cons rfl .nil
  · exact .nil

theorem xmit_minor (a : Adapter) (mapping : Option UInt64) : Minor (Card.xmitDeeds a mapping) := by
  refine (Minor.uses _).append ?_
  split
  · exact .nil
  · exact .passSlot
  · refine (Minor.fillSlot.append (.uses _)).append ?_
    split
    · exact .cons rfl .nil
    · exact .cons rfl .nil

theorem deliver_minor (a : RxAdapter) : Minor (Card.deliverDeeds a) := by
  refine (Minor.uses _).append ?_
  split
  · exact .nil
  · exact .uses _

theorem workerRound_minor (c : Card) (w : TxWorker) (kmallocOk : Bool) :
    Minor (c.workerRoundDeeds w kmallocOk) := by
  refine ((Minor.uses _).append ?_).append ?_
  · split
    · exact .cons rfl .nil
    · exact .nil
  · split
    · exact .nil
    · exact .cons rfl (deliver_minor _)

theorem workerEnd_minor (c : Card) (w : TxWorker) : Minor (c.workerEndDeeds w) := by
  refine ((Minor.uses _).append ?_).append ?_
  · split
    · exact .cons rfl (intr_minor _)
    · exact .nil
  · split
    · exact .nil
    · exact .cons rfl .nil

theorem cleanTx_minor (fuel : ℕ) (a : Adapter) (i : ℕ) : Minor (Card.cleanTxDeeds fuel a i) := by
  induction fuel generalizing a i with
  | zero => exact .nil
  | succ fuel ih =>
    unfold Card.cleanTxDeeds
    split
    · exact Minor.emptySlot.append (ih _ _)
    · exact .nil

theorem receive_minor (a : RxAdapter) (label : RxLabel) : Minor (Card.receiveDeeds a label) := by
  unfold Card.receiveDeeds
  split
  · split
    · exact .emptySlot
    · exact .nil
  · split
    · exact .passSlot
    · exact .fillSlot
    · exact .nil
  · exact .nil

theorem ndo_minor (c : Card) (ok vectors : Bool) : Minor (c.ndoDeeds ok vectors) := by
  unfold Card.ndoDeeds
  cases c.iface <;> cases ok <;> cases vectors <;> cases c.timerArmed <;>
    simp [Minor,minor,uses,Resource.extra]

/-- The steps of a card get and give back extras, the vector and the interrupt only. -/
theorem deeds_minor (c : Card) (label : CardLabel) (vectors : Bool) :
    Minor (c.deeds label vectors) := by
  unfold Card.deeds
  cases label with
  | register => exact .nil
  | ndoOpen => exact .cons rfl .nil
  | ndoStop => exact .cons rfl (.cons rfl .nil)
  | ndo ok => exact ndo_minor c ok vectors
  | xmit skb mapping => exact xmit_minor _ _
  | workerStart => exact .uses _
  | workerRound kmallocOk =>
    cases c.tx.txWorker with
    | none => exact .nil
    | some w => exact workerRound_minor c w kmallocOk
  | workerEnd =>
    cases c.tx.txWorker with
    | none => exact .nil
    | some w => exact workerEnd_minor c w
  | interrupt => exact .cons rfl (intr_minor c)
  | linkTimer => exact ((Minor.uses _).append (intr_minor _)).append (.cons rfl .nil)
  | napiPoll budget => exact .cons rfl .nil
  | poll =>
    refine (Minor.uses _).append ?_
    split
    · exact cleanTx_minor _ _ _
    · exact .nil
  | receive rxLabel =>
    refine ((Minor.uses _).append ?_).append (receive_minor _ _)
    split
    · exact .nil
    · exact .cons rfl .nil
  | unmask => exact .uses _

end Minor

end NetLab.Edunic
