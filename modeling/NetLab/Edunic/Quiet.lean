import Mathlib
import NetLab.Edunic.CardRuns

/-! The stopped interface. edunic_stop masks the causes and stops the queue before its
napi_disable waits for the poll, and the poll unmasks and wakes by itself. -/
namespace NetLab.Edunic

/-- In edunic_stop, or stopped: netif_stop_queue has been called. -/
def Iface.stopping : Iface → Bool
  | .hwStop | .freeInterrupts | .napiDisable | .napiDisabling | .carrierOff | .stopped => true
  | _ => false

/-- In edunic_stop, or stopped: edunic_hw_stop has written IMC. -/
def Iface.masked : Iface → Bool
  | .freeInterrupts | .napiDisable | .napiDisabling | .carrierOff | .stopped => true
  | _ => false

/-- All causes are masked and nothing has written IMS since; the queue is stopped and nobody has
called netif_wake_queue since. -/
structure Quiet (c : Card) : Prop where
  masked : c.ims = .none
  silent : c.unmasked = false
  stopped : c.tx.queueStopped = true
  asleep : c.woken = false

/-- The poll is about to look at the queue's flag. -/
def PollPc.flagging : PollPc → Bool
  | .flag _ => true
  | _ => false

/-- The poll is about to call netif_wake_queue. -/
def PollPc.waking : PollPc → Bool
  | .wake _ => true
  | _ => false

/-- The poll is about to call napi_complete_done. -/
def PollPc.completing : PollPc → Bool
  | .completeDone _ => true
  | _ => false

/-- The poll does not get in the way of edunic_stop: netif_stop_queue finds it before no
netif_wake_queue, edunic_hw_stop finds no write to IMS outstanding, and from there on no poll finds
room in the ring it has cleaned, or calls napi_complete_done without a request that came in
meanwhile. -/
def Card.Calm (c : Card) (label : CardLabel) : Prop :=
  (label = .ndoStop → c.poll.waking = false) ∧
  (∀ ok, label = .ndo ok → c.iface = .hwStop → c.unmasks = 0) ∧
  (label = .poll → c.poll.flagging = true → c.iface.stopping = true →
    c.tx.txRing.unused < txDescPerPkt) ∧
  (label = .poll → c.poll.completing = true → c.iface.masked = true → c.napi.missed = true)

instance (c : Card) (label : CardLabel) : Decidable (c.Calm label) :=
  inferInstanceAs (Decidable ((_ → _) ∧ (_ : Prop) ∧ (_ → _) ∧ (_ → _)))

variable {c d : Card}

/-- edunic_stop is or has been quiet so far. -/
structure QuietInv (c : Card) : Prop where
  stopped : c.iface.stopping = true →
    c.tx.queueStopped = true ∧ c.woken = false ∧ c.poll.waking = false
  masked : c.iface.masked = true → c.ims = .none ∧ c.unmasked = false ∧ c.unmasks = 0

namespace QuietInv

theorem quiet (h : QuietInv c) (hf : c.iface = .stopped) : Quiet c := by
  obtain ⟨hqueue,hwoken,-⟩ := h.stopped (by rw [hf]; rfl)
  obtain ⟨hims,hunmasked,-⟩ := h.masked (by rw [hf]; rfl)
  exact ⟨hims,hunmasked,hqueue,hwoken⟩

/-- Steps that move neither the poll nor edunic_stop, and neither unmask nor wake. -/
theorem frame (h : QuietInv c) (hiface : d.iface = c.iface)
    (hqueue : d.tx.queueStopped = c.tx.queueStopped) (hwoken : d.woken = c.woken)
    (hpoll : d.poll = c.poll) (hims : c.ims = .none → d.ims = .none)
    (hunmasked : d.unmasked = c.unmasked) (hunmasks : d.unmasks = c.unmasks) : QuietInv d := by
  obtain ⟨hstopped,hmasked⟩ := h
  rw [← hiface,← hqueue,← hwoken,← hpoll] at hstopped
  rw [← hiface,← hunmasked,← hunmasks] at hmasked
  exact ⟨hstopped,fun hf => ⟨hims (hmasked hf).1,(hmasked hf).2⟩⟩

theorem intr (h : QuietInv c) : QuietInv c.intr :=
  h.frame (intr_iface c) (by rw [intr_tx]) (intr_woken c) (intr_poll c) (intr_ims c)
    (intr_unmasked c) (intr_unmasks c)

/-- The interface is neither stopped nor being stopped. -/
theorem of_open (hf : d.iface.stopping = false) : QuietInv d := by
  refine ⟨fun hs => ?_,fun hm => ?_⟩
  · rw [hf] at hs
    contradiction
  · cases hi : d.iface <;> rw [hi] at hf hm <;> contradiction

theorem clear_all (causes : Causes) : causes.clear .all = .none := by
  simp [Causes.clear,Causes.all,Causes.none]

theorem ndoStep {ok : Bool} (h : QuietInv c) (hok : c.Calm (.ndo ok))
    (hstep : c.ndoStep ok = some d) : QuietInv d := by
  obtain ⟨hstopped,hmasked⟩ := h
  have hndo := ndoStep_cases hstep
  cases hf : c.iface <;> rw [hf] at hndo hstopped hmasked
  case hwStop =>
    subst hndo
    exact ⟨fun _ => hstopped rfl,fun _ => ⟨clear_all c.ims,rfl,hok.2.1 ok rfl hf⟩⟩
  case freeInterrupts => subst hndo; exact ⟨fun _ => hstopped rfl,fun _ => hmasked rfl⟩
  case napiDisable => subst hndo; exact ⟨fun _ => hstopped rfl,fun _ => hmasked rfl⟩
  case carrierOff => subst hndo; exact ⟨fun _ => hstopped rfl,fun _ => hmasked rfl⟩
  case napiDisabling =>
    obtain ⟨-,rfl⟩ := hndo
    exact ⟨fun _ => hstopped rfl,fun _ => hmasked rfl⟩
  case setupInterrupts => obtain ⟨-,rfl⟩ | ⟨-,rfl⟩ := hndo <;> exact of_open rfl
  case undoing => obtain ⟨-,rfl⟩ := hndo; exact of_open rfl
  case probing => contradiction
  case down => contradiction
  case up => contradiction
  case stopped => contradiction
  all_goals subst hndo; exact of_open rfl

theorem pollStep (h : QuietInv c) (hok : c.Calm .poll) (hstep : c.pollStep = some d) :
    QuietInv d := by
  obtain ⟨-,-,hwake,hunmask⟩ := hok
  obtain ⟨hstopped,hmasked⟩ := h
  have hpoll := pollStep_cases hstep
  -- a step of the poll that neither wakes nor counts another write to IMS
  have hplain : ∀ {e : Card}, e.iface = c.iface → e.tx.queueStopped = c.tx.queueStopped →
      e.woken = c.woken → e.poll.waking = false → e.ims = c.ims →
      e.unmasked = c.unmasked → e.unmasks = c.unmasks → QuietInv e := by
    intro e hiface hqueue hwoken hpc hims hunmasked hunmasks
    rw [← hiface,← hqueue,← hwoken] at hstopped
    rw [← hiface,← hims,← hunmasked,← hunmasks] at hmasked
    exact ⟨fun hs => ⟨(hstopped hs).1,(hstopped hs).2.1,hpc⟩,hmasked⟩
  cases hp : c.poll with
  | idle =>
    rw [hp] at hpoll
    contradiction
  | cleanTx budget =>
    rw [hp] at hpoll
    obtain ⟨tx,i,packets,bytes,hloop,hpoll⟩ := hpoll
    have hqueue : tx.queueStopped = c.tx.queueStopped :=
      cleanLoop_keeps (P := fun a => a.queueStopped = c.tx.queueStopped) (fun _ _ h => h) rfl hloop
    obtain ⟨-,rfl⟩ | ⟨-,rfl⟩ := hpoll <;> exact hplain rfl hqueue rfl rfl rfl rfl rfl
  | flag budget =>
    rw [hp] at hpoll
    obtain ⟨⟨-,hroom⟩,rfl⟩ | ⟨-,rfl⟩ := hpoll
    · refine of_open (Bool.eq_false_iff.mpr fun hs => ?_)
      exact absurd hroom (not_le.mpr (hwake rfl (by rw [hp]; rfl) hs))
    · exact hplain rfl rfl rfl rfl rfl rfl rfl
  | wake budget =>
    rw [hp] at hpoll
    subst hpoll
    refine of_open (Bool.eq_false_iff.mpr fun hs => ?_)
    have hasleep := (hstopped hs).2.2
    rw [hp] at hasleep
    contradiction
  | cleanRx budget =>
    rw [hp] at hpoll
    obtain ⟨rx,-,rfl⟩ := hpoll
    exact hplain rfl rfl rfl rfl rfl rfl rfl
  | receive budget =>
    rw [hp] at hpoll
    obtain ⟨workDone,-,⟨-,rfl⟩ | ⟨-,rfl⟩⟩ := hpoll <;> exact hplain rfl rfl rfl rfl rfl rfl rfl
  | completeDone workDone =>
    rw [hp] at hpoll
    obtain ⟨-,rfl⟩ | ⟨hmiss,rfl⟩ := hpoll
    · exact hplain rfl rfl rfl rfl rfl rfl rfl
    · refine ⟨fun hs => ⟨(hstopped hs).1,(hstopped hs).2.1,rfl⟩,fun hm => ?_⟩
      have hrequest := hunmask rfl (by rw [hp]; rfl) hm
      rw [hmiss] at hrequest
      contradiction

theorem step {label : CardLabel} (h : QuietInv c) (hok : c.Calm label)
    (hstep : c.step label = some d) : QuietInv d := by
  have hcases := card_cases hstep
  cases label with
  | ndo ok => exact h.ndoStep hok hcases
  | poll => exact h.pollStep hok hcases
  | register => obtain ⟨-,rfl⟩ := hcases; exact of_open rfl
  | ndoOpen => obtain ⟨-,rfl⟩ := hcases; exact of_open rfl
  | ndoStop =>
    obtain ⟨-,rfl⟩ := hcases
    exact ⟨fun _ => ⟨rfl,rfl,hok.1 rfl⟩,fun hm => by contradiction⟩
  | xmit skb mapping =>
    obtain ⟨hf,rfl⟩ := hcases
    exact of_open (by rw [hf]; rfl)
  | workerStart =>
    obtain ⟨-,rfl⟩ := hcases
    exact h.frame rfl rfl rfl rfl id rfl rfl
  | workerRound kmallocOk =>
    obtain ⟨w,-,-,rfl⟩ := hcases
    obtain ⟨rx,icr,hround,-⟩ := workerRound_eq c w kmallocOk
    rw [hround]
    exact h.frame rfl rfl rfl rfl id rfl rfl
  | workerEnd =>
    obtain ⟨w,-,-,rfl⟩ := hcases
    have hqueue : (c.tx.hwTxWorkerEnd w).queueStopped = c.tx.queueStopped := by
      unfold Adapter.hwTxWorkerEnd
      by_cases hsent : w.sentAny
      · rw [if_pos hsent]
        rfl
      · rw [if_neg hsent]
    rw [workerEnd_eq]
    by_cases hsent : w.sentAny
    · rw [if_pos hsent]
      exact intr (h.frame rfl hqueue rfl rfl id rfl rfl)
    · rw [if_neg hsent]
      exact h.frame rfl hqueue rfl rfl id rfl rfl
  | interrupt =>
    obtain ⟨-,rfl⟩ := hcases
    exact h.intr
  | linkTimer =>
    obtain ⟨-,rfl⟩ := hcases
    exact intr (h.frame rfl rfl rfl rfl id rfl rfl)
  | receive label =>
    obtain ⟨-,rx,-,rfl⟩ := hcases
    exact h.frame rfl rfl rfl rfl id rfl rfl
  | napiPoll budget =>
    obtain ⟨-,rfl⟩ := hcases
    exact ⟨fun hs => ⟨(h.stopped hs).1,(h.stopped hs).2.1,rfl⟩,h.masked⟩
  | unmask =>
    obtain ⟨hleft,rfl⟩ := hcases
    refine ⟨h.stopped,fun hm => ?_⟩
    exact absurd (h.masked hm).2.2 hleft

end QuietInv

/-- In every run in which the poll does not get in the way of edunic_stop, a stopped interface is
quiet until it is opened again. -/
theorem stopped_quiet (h : card.ReachableUnder Card.Calm c) (hf : c.iface = .stopped) : Quiet c := by
  have hstep : ∀ s label t, card.ReachableUnder Card.Calm s → QuietInv s → s.Calm label →
      card.step s label = some t → QuietInv t := fun _ _ _ _ hi hok hstep => hi.step hok hstep
  have hinv : QuietInv c := by
    refine h.invariant ?_ hstep
    rintro s ⟨tdh,tdt,rdh,rdt,rfl⟩
    exact QuietInv.of_open rfl
  exact hinv.quiet hf

/-- A write to IMS that a poll still owes comes whenever it likes. -/
theorem late_unmask (hleft : c.unmasks ≠ 0) : ∃ d, c.step .unmask = some d ∧ d.iface = c.iface ∧
    ¬ Quiet d := by
  refine ⟨_,if_pos hleft,rfl,fun hquiet => ?_⟩
  have hsilent := hquiet.silent
  contradiction

/-- One packet, sent and reclaimed; the poll ends before edunic_stop is called. -/
theorem stopped_quiet_run : ∃ c, card.ReachableUnder Card.Calm c ∧ c.tx.stats.txPackets = 1 ∧
    Quiet c := by
  have hrun : ((card.restrict Card.Calm).run (openedOnce ++ onePacket ++ onePoll ++
      stopSteps) (probedCard 0 0 0 0)).map (fun c => (c.iface,c.tx.stats.txPackets)) = some (.stopped,1) := by
    decide +kernel
  obtain ⟨c,hc,hout⟩ := Option.map_eq_some_iff.mp hrun
  obtain ⟨hf,hpackets⟩ := Prod.mk.inj hout
  have hreach : card.ReachableUnder Card.Calm c := .of_run (card_init 0 0 0 0) hc
  exact ⟨c,hreach,hpackets,stopped_quiet hreach hf⟩

/-- edunic_stop, with the poll between its free_irq and its napi_disable. -/
def stopOverPoll : List CardLabel :=
  [.ndoStop,.ndo true,.ndo true,.ndo true,.napiPoll 64,.poll,.poll,.poll,.poll,.receive .harvest,
    .receive .harvested,.receive (.refill none none),.receive .announce,.poll,.poll,.ndo true,
    .ndo true,.unmask]

/-- edunic_stop while a poll is scheduled: the poll wakes the queue, and its write to IMS comes
after edunic_stop has returned. -/
theorem poll_outlives_stop : ∃ c, card.Reachable c ∧ c.iface = .stopped ∧ c.ims = rxTx ∧
    c.tx.queueStopped = false ∧ ¬ Quiet c := by
  have hrun : (card.run (openedOnce ++ onePacket ++ stopOverPoll)
      (probedCard 0 0 0 0)).map (fun c => (c.iface,c.ims,c.tx.queueStopped)) =
        some (.stopped,rxTx,false) := by
    decide +kernel
  obtain ⟨c,hc,hout⟩ := Option.map_eq_some_iff.mp hrun
  obtain ⟨hf,hout⟩ := Prod.mk.inj hout
  obtain ⟨hims,hqueue⟩ := Prod.mk.inj hout
  have hreach : card.Reachable c := Machine.Reachable.of_run (card_init 0 0 0 0) hc
  refine ⟨c,hreach,hf,hims,hqueue,fun hquiet => ?_⟩
  have hstopped := hquiet.stopped
  rw [hqueue] at hstopped
  contradiction

end NetLab.Edunic
