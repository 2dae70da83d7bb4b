import Mathlib
import NetLab.Edunic.CardRuns

/-! Completed work finds somebody to take it: a poll that is scheduled, or a worker that will
interrupt. An interrupt that comes while NAPI is disabled is consumed for nothing, and no later
step makes up for it. -/
namespace NetLab.Edunic
open NetLab.Ring

/-- The descriptor at `next_to_clean` is done. -/
def Adapter.FrontDone (a : Adapter) : Prop :=
  a.txRing.nextToClean ≠ a.txRing.nextToUse ∧ (a.txRing.desc a.txRing.nextToClean).done = true

def RxAdapter.FrontDone (a : RxAdapter) : Prop :=
  (a.rxRing.desc a.rxRing.nextToClean).done = true

/-- An execution of the worker that will still call edunic_intr: it has sent something or is about
to, or it is pending and will find TDH and TDT apart. -/
def Adapter.WillInterrupt (a : Adapter) : Prop :=
  (∃ w, a.txWorker = some w ∧ (w.sentAny = true ∨ w.head ≠ w.tail)) ∨
    (a.workPending = true ∧ a.tdh ≠ a.tdt)

/-- NAPI is scheduled or running, or will be. -/
def Card.Attended (c : Card) : Prop := c.napi.scheduled = true ∨ c.tx.WillInterrupt

/-- Nothing completed is left with nobody to take it. -/
def Card.Unstranded (c : Card) : Prop := c.tx.FrontDone ∨ c.rx.FrontDone → c.Attended

/-- edunic_open finds completed work only when the worker will still interrupt. -/
def Card.Drained (c : Card) (label : CardLabel) : Prop :=
  label = .ndoOpen → c.tx.FrontDone ∨ c.rx.FrontDone → c.tx.WillInterrupt

instance (a : Adapter) : Decidable a.FrontDone := inferInstanceAs (Decidable (_ ∧ _))
instance (a : RxAdapter) : Decidable a.FrontDone := inferInstanceAs (Decidable (_ = _))

instance (a : Adapter) : Decidable a.WillInterrupt :=
  match hw : a.txWorker with
  | some w => decidable_of_iff ((w.sentAny = true ∨ w.head ≠ w.tail) ∨
      (a.workPending = true ∧ a.tdh ≠ a.tdt)) (by simp [Adapter.WillInterrupt,hw])
  | none => decidable_of_iff (a.workPending = true ∧ a.tdh ≠ a.tdt)
      (by simp [Adapter.WillInterrupt,hw])

instance (c : Card) (label : CardLabel) : Decidable (c.Drained label) :=
  inferInstanceAs (Decidable (_ → (_ ∨ _) → _))

variable {c d : Card} {label : CardLabel}

/-! ### The transmit half -/

theorem Loaded.front_done_iff {a : Adapter} {queue : List TxBuf} {n : ℕ} (h : Loaded a queue n) :
    a.FrontDone ↔ 0 < n := by
  have hroom := h.room
  have hdone := h.done_le
  have hclean := h.clean_lt
  have hfront := h.dones.at_cell (i := 0) (by omega) ringSize_pos
  rw [cell_zero hclean] at hfront
  unfold Adapter.FrontDone
  rw [hfront]
  refine ⟨fun hf => hf.2,fun hn => ⟨fun heq => ?_,hn⟩⟩
  have huse := h.use
  rw [← heq] at huse
  nth_rewrite 1 [← cell_zero hclean] at huse
  have hlen := (cell_inj ringSize_pos hroom).mp huse
  omega

/-- Posting a packet cannot bring TDT back to TDH. -/
theorem Loaded.apart {a : Adapter} {queue : List TxBuf} {n : ℕ} (h : Loaded a queue n)
    (hroom : txDescPerPkt ≤ a.txRing.unused)
    (hunsent : ∀ w, a.txWorker = some w → w.sentAny = false) :
    a.tdh ≠ next a.txRing.nextToUse := by
  have hdone := h.done_le
  have hengine := h.engine
  have hhead : a.tdh = cell ringSize a.txRing.nextToClean n := by
    cases hw : a.txWorker with
    | none =>
      rw [hw] at hengine
      cases hengine with
      | idle head kick => exact head
    | some w =>
      rw [hw] at hengine
      cases hengine with
      | running ahead shown bound head tail unsent kick => exact (unsent (hunsent w hw)).trans head
  have hfits : queue.length+1 < ringSize := by
    rw [h.unused,txDescPerPkt] at hroom
    omega
  rw [hhead,h.use,next_cell,ne_eq,cell_inj (by omega) hfits]
  omega

/-- A promised interrupt stays promised until the worker ends. -/
theorem TxMove.will {tx : Adapter} (h : TxMove c label tx) (hi : c.Transmits)
    (hlabel : label ≠ .workerEnd) (hw : c.tx.WillInterrupt) : tx.WillInterrupt := by
  cases h with
  | flag stopped => exact hw
  | @xmit skb mapping =>
    obtain ⟨gone,queue,n,hload,-⟩ := hi
    obtain ⟨stopped,stats,es,-,hsame | ⟨dma,-,hroom,hpost⟩⟩ := startXmit_cases c.tx skb mapping
    · rw [hsame]
      exact hw
    · rw [hpost]
      by_cases hsent : ∃ w, c.tx.txWorker = some w ∧ w.sentAny = true
      · obtain ⟨w,hrun,hsent⟩ := hsent
        exact .inl ⟨w,hrun,.inl hsent⟩
      · refine .inr ⟨rfl,hload.apart hroom fun w hrun => ?_⟩
        by_contra hsome
        exact hsent ⟨w,hrun,by simpa using hsome⟩
  | start hidle =>
    obtain ⟨w,hrun,-⟩ | ⟨-,hapart⟩ := hw
    · rw [hidle] at hrun
      contradiction
    · exact .inl ⟨_,rfl,.inr hapart⟩
  | round hrun hne => exact .inl ⟨_,rfl,.inl rfl⟩
  | done hrun heq => exact absurd rfl hlabel
  | clean stats hloop =>
    have htx := cleanLoop_keeps (P := Adapter.WillInterrupt) (fun _ _ h => h) hw hloop
    exact htx

/-- Only the worker makes the front of the transmit ring done. -/
theorem TxMove.front {tx : Adapter} (h : TxMove c label tx) (hi : c.Transmits)
    (hlabel : ∀ kmallocOk, label ≠ .workerRound kmallocOk) (hf : tx.FrontDone) :
    c.tx.FrontDone := by
  obtain ⟨gone,queue,n,hload,hledger⟩ := hi
  rw [hload.front_done_iff]
  cases h with
  | flag stopped => exact hload.front_done_iff.mp hf
  | xmit =>
    obtain ⟨queue',hload',-⟩ := startXmit_spec hload hledger _ _
    exact hload'.front_done_iff.mp hf
  | start hidle => exact hload.front_done_iff.mp hf
  | round hrun hne => exact absurd rfl (hlabel _)
  | done hrun heq => exact (hload.workerEnd hrun heq).front_done_iff.mp hf
  | clean stats hloop =>
    obtain ⟨-,hload',-⟩ := cleanLoop_all hload hledger hloop
    exact absurd (hload'.front_done_iff.mp hf) (lt_irrefl 0)

/-! ### The poll -/

/-- The poll has left the loop of edunic_clean_tx_irq. -/
def PollPc.pastTx : PollPc → Bool
  | .idle | .cleanTx _ => false
  | _ => true

/-- The receive code has left the loop of edunic_clean_rx_irq, with budget to spare. -/
def RxDriver.Past (budget : ℤ) : RxDriver → Prop
  | .idle workDone | .refilling _ _ _ (.clean workDone) | .broken _ _ (.clean workDone) =>
    ¬ budget ≤ workDone
  | _ => False

/-- The poll has left that loop, with budget to spare. -/
def Card.PastRx (c : Card) : Prop :=
  match c.poll with
  | .receive budget => c.rx.driver.Past budget
  | .completeDone _ => True
  | _ => False

/-- The receive code as a poll with `budget` runs it. -/
def RxDriver.RunsFor (budget : ℤ) : RxDriver → Prop
  | .idle _ | .refilling _ _ _ (.clean _) | .broken _ _ (.clean _) => True
  | .harvesting _ _ _ given => given = budget
  | _ => False

section
variable {a b : RxAdapter} {rxLabel : RxLabel} {budget : ℤ}

/-- With budget to spare the loop of edunic_clean_rx_irq ends at a slot that is not done. -/
theorem harvested_past {i w k : ℕ} (hstop : ¬ a.harvests i w budget) :
    (a.harvested i w k).driver.RunsFor budget ∧
      ((a.harvested i w k).driver.Past budget → ¬ (a.harvested i w k).FrontDone) := by
  unfold RxAdapter.harvested
  by_cases hk : k ≠ 0
  · rw [if_pos hk]
    exact ⟨trivial,fun hspare hdone => hstop ⟨not_le.mp hspare,hdone⟩⟩
  · rw [if_neg hk]
    exact ⟨trivial,fun hspare hdone => hstop ⟨not_le.mp hspare,hdone⟩⟩

theorem refill_front {i left posted : ℕ} {caller : RxCaller} {skb : Option SkBuff}
    {mapping : Option UInt64} (hdone : (a.refill i left posted caller skb mapping).FrontDone) :
    a.FrontDone := by
  unfold RxAdapter.FrontDone at hdone ⊢
  unfold RxAdapter.refill at hdone
  cases skb with
  | none => exact hdone
  | some skb =>
    cases mapping with
    | none => exact hdone
    | some dma =>
      by_cases hi : a.rxRing.nextToClean = i
      · simp [RxRing.setSlot,hi,RxDesc.done_cleared] at hdone
      · simpa [RxAdapter.note,RxRing.setSlot,hi] using hdone

theorem refill_driver (a : RxAdapter) (i left posted : ℕ) (caller : RxCaller)
    (skb : Option SkBuff) (mapping : Option UInt64) :
    (a.refill i left posted caller skb mapping).driver = .broken i posted caller ∨
      (a.refill i left posted caller skb mapping).driver =
        .refilling (next i) left (posted+1) caller := by
  unfold RxAdapter.refill
  cases skb <;> cases mapping <;> simp

theorem announce_front {i posted : ℕ} {caller : RxCaller}
    (hdone : (a.announce i posted caller).FrontDone) : a.FrontDone := by
  unfold RxAdapter.FrontDone at hdone ⊢
  unfold RxAdapter.announce at hdone
  by_cases hposted : posted ≠ 0 <;> cases caller <;> simpa [hposted] using hdone

/-- The receive code stays within its poll, and no slot it has passed by gets done. -/
theorem rxStep_past (hrun : a.driver.RunsFor budget) (hdriven : rxLabel.driven = true)
    (h : a.rxStep rxLabel = some b) : b.driver.RunsFor budget ∧
      (b.driver.Past budget → b.FrontDone → a.driver.Past budget ∧ a.FrontDone) := by
  obtain ⟨-,hcases⟩ := rxStep_cases h
  cases rxLabel with
  | deliver frame => contradiction
  | clean given => contradiction
  | free => contradiction
  | harvest =>
    obtain ⟨i,w,k,given,hd,-,rfl⟩ := hcases
    rw [hd] at hrun
    exact ⟨hrun,fun hpast => by contradiction⟩
  | harvested =>
    obtain ⟨i,w,k,given,hd,hstop,rfl⟩ := hcases
    rw [hd] at hrun
    obtain rfl : given = budget := hrun
    obtain ⟨hruns,hclear⟩ := harvested_past (k := k) hstop
    exact ⟨hruns,fun hpast hdone => absurd hdone (hclear hpast)⟩
  | refill skb mapping =>
    obtain ⟨i,left,posted,caller,hd,rfl⟩ := hcases
    rw [hd] at hrun ⊢
    cases caller with
    | probe => contradiction
    | clean w =>
      obtain hd' | hd' := refill_driver a i left posted (.clean w) skb mapping <;> rw [hd'] <;>
        exact ⟨trivial,fun hspare hdone => ⟨hspare,refill_front hdone⟩⟩
  | announce =>
    obtain ⟨i,posted,caller,hd,rfl⟩ := hcases
    cases caller with
    | probe => obtain hd | hd := hd <;> rw [hd] at hrun <;> contradiction
    | clean w =>
      obtain hd | hd := hd <;> rw [hd] <;>
        exact ⟨trivial,fun hspare hdone => ⟨hspare,announce_front hdone⟩⟩

end

/-- While NAPI is enabled: work that is completed is attended to, and what a poll has passed by
makes it run again or is the worker's to report. -/
structure AttendedInv (c : Card) : Prop where
  front : c.napi.mode = .enabled → c.Unstranded
  cleaned : c.napi.mode = .enabled → c.poll.pastTx = true → c.tx.FrontDone →
    c.napi.missed = true ∨ c.tx.WillInterrupt
  harvested : c.napi.mode = .enabled → c.PastRx → c.rx.FrontDone →
    c.napi.missed = true ∨ c.tx.WillInterrupt
  runs : ∀ budget, c.poll = .receive budget → c.rx.driver.RunsFor budget

theorem Card.PastRx.running (h : c.PastRx) : c.poll ≠ .idle := by
  intro hp
  unfold Card.PastRx at h
  rw [hp] at h
  exact h

namespace AttendedInv

/-- Steps that move neither NAPI nor the poll, break no promised interrupt and complete nothing. -/
theorem frame (h : AttendedInv c) (hnapi : d.napi = c.napi) (hpoll : d.poll = c.poll)
    (hrx : d.rx = c.rx) (hwill : c.tx.WillInterrupt → d.tx.WillInterrupt)
    (hfront : d.tx.FrontDone → c.tx.FrontDone) : AttendedInv d := by
  obtain ⟨hf,hc,hh,hruns⟩ := h
  have hpast : d.PastRx → c.PastRx := by
    unfold Card.PastRx
    rw [hpoll,hrx]
    exact id
  refine ⟨fun hmode hdone => ?_,fun hmode hpc hdone => ?_,fun hmode hpc hdone => ?_,?_⟩
  · rw [hrx] at hdone
    rw [hnapi] at hmode
    unfold Card.Attended
    rw [hnapi]
    exact (hf hmode (hdone.imp_left hfront)).imp_right hwill
  · rw [hnapi] at hmode ⊢
    rw [hpoll] at hpc
    exact (hc hmode hpc (hfront hdone)).imp_right hwill
  · rw [hnapi] at hmode ⊢
    rw [hrx] at hdone
    exact (hh hmode (hpast hpc) hdone).imp_right hwill
  · rw [hpoll,hrx]
    exact hruns

/-- NAPI is not enabled: nothing is promised. -/
theorem of_disabled (hmode : d.napi.mode ≠ .enabled)
    (hruns : ∀ budget, d.poll = .receive budget → d.rx.driver.RunsFor budget) : AttendedInv d :=
  ⟨fun h => absurd h hmode,fun h => absurd h hmode,fun h => absurd h hmode,hruns⟩

/-- The worker has promised an interrupt. -/
theorem of_will (hwill : d.tx.WillInterrupt)
    (hruns : ∀ budget, d.poll = .receive budget → d.rx.driver.RunsFor budget) : AttendedInv d :=
  ⟨fun _ _ => .inr hwill,fun _ _ _ => .inr hwill,fun _ _ _ => .inr hwill,hruns⟩

theorem intr_pastRx (c : Card) : c.intr.PastRx ↔ c.PastRx := by
  unfold Card.PastRx
  rw [intr_poll,intr_rx]

theorem intr (h : AttendedInv c) : AttendedInv c.intr := by
  obtain ⟨hf,hc,hh,hruns⟩ := h
  by_cases hdata : c.icr.rx ∨ c.icr.tx
  swap
  · have hsame : c.intr.napi = c.napi := by rw [intr_napi,if_neg hdata]
    refine frame ⟨hf,hc,hh,hruns⟩ hsame (intr_poll c) (intr_rx c) ?_ ?_ <;> rw [intr_tx] <;> exact id
  have hnapi : c.intr.napi = c.napi.schedulePrep.1 := by rw [intr_napi,if_pos hdata]
  refine ⟨fun hmode hdone => ?_,fun hmode hpc hdone => ?_,fun hmode hpc hdone => ?_,?_⟩
  · rw [intr_mode] at hmode
    refine .inl ?_
    rw [hnapi]
    exact (schedulePrep_enabled hmode).1
  · rw [intr_mode] at hmode
    rw [intr_poll] at hpc
    rw [intr_tx] at hdone ⊢
    rw [hnapi]
    exact (hc hmode hpc hdone).imp_left (schedulePrep_enabled hmode).2.2
  · rw [intr_mode] at hmode
    rw [intr_pastRx] at hpc
    rw [intr_rx] at hdone
    rw [intr_tx,hnapi]
    exact (hh hmode hpc hdone).imp_left (schedulePrep_enabled hmode).2.2
  · rw [intr_poll,intr_rx]
    exact hruns

/-- An interrupt for completed packets schedules the poll, or makes it run again. -/
theorem intr_completed (hn : NapiSound c) (htx : c.icr.tx = true)
    (hruns : ∀ budget, c.poll = .receive budget → c.rx.driver.RunsFor budget) :
    AttendedInv c.intr := by
  have hnapi : c.intr.napi = c.napi.schedulePrep.1 := by rw [intr_napi,if_pos (.inr htx)]
  have hmissed : c.napi.mode = .enabled → c.poll ≠ .idle → c.intr.napi.missed = true := by
    intro hmode hp
    rw [hnapi]
    exact (schedulePrep_enabled hmode).2.1 (hn.running hp)
  refine ⟨fun hmode hdone => ?_,fun hmode hpc hdone => ?_,fun hmode hpc hdone => ?_,?_⟩
  · rw [intr_mode] at hmode
    refine .inl ?_
    rw [hnapi]
    exact (schedulePrep_enabled hmode).1
  · rw [intr_mode] at hmode
    rw [intr_poll] at hpc
    refine .inl (hmissed hmode fun hp => ?_)
    rw [hp] at hpc
    contradiction
  · rw [intr_mode] at hmode
    rw [intr_pastRx] at hpc
    exact .inl (hmissed hmode hpc.running)
  · rw [intr_poll,intr_rx]
    exact hruns

/-- A round of the worker promises the interrupt itself. -/
theorem round (h : AttendedInv c) (w : TxWorker) (kmallocOk : Bool) :
    AttendedInv (c.hwTxWorkerRound w kmallocOk) := by
  obtain ⟨rx,icr,hround,-,hrx⟩ := workerRound_eq c w kmallocOk
  have hdriver : rx.driver = c.rx.driver := by
    obtain ⟨-,rfl⟩ | ⟨frame,-,rfl⟩ := hrx
    · rfl
    · unfold RxAdapter.hwDeliverRxFrame
      by_cases hfull : c.rx.rdh = c.rx.rdt
      · rw [if_pos hfull]
        rfl
      · rw [if_neg hfull]
        rfl
  rw [hround]
  refine of_will (.inl ⟨_,rfl,.inl rfl⟩) fun budget hp => ?_
  rw [hdriver]
  exact h.runs budget hp

theorem workerEnd (h : AttendedInv c) (hi : c.Transmits) (hn : NapiSound c) {w : TxWorker}
    (hw : c.tx.txWorker = some w) (heq : w.head = w.tail) : AttendedInv (c.hwTxWorkerEnd w) := by
  have hmove : TxMove c .workerEnd (c.tx.hwTxWorkerEnd w) := .done hw heq
  rw [workerEnd_eq]
  by_cases hsent : w.sentAny
  · rw [if_pos hsent]
    exact intr_completed (hn.frame rfl rfl id) (Bool.or_true _) h.runs
  · rw [if_neg hsent]
    refine h.frame rfl rfl rfl (fun hwill => ?_) (hmove.front hi (by simp))
    have hend : c.tx.hwTxWorkerEnd w = { c.tx with txWorker := none } := if_neg hsent
    obtain ⟨w',hw',hahead⟩ | hpending := hwill
    · obtain rfl := Option.some.inj (hw.symm.trans hw')
      obtain hsome | hne := hahead
      · exact absurd hsome hsent
      · exact absurd heq hne
    · change (c.tx.hwTxWorkerEnd w).WillInterrupt
      rw [hend]
      exact .inr hpending

/-- The receive code moves on within a poll: what it leaves behind it has looked at. -/
theorem receive {rx : RxAdapter} {rxLabel : RxLabel} {budget : ℤ} (h : AttendedInv c)
    (hn : NapiSound c) (hp : c.poll = .receive budget) (hdriven : rxLabel.driven = true)
    (hstep : c.rx.rxStep rxLabel = some rx) : AttendedInv { c with rx } := by
  obtain ⟨hruns,hpast⟩ := rxStep_past (h.runs budget hp) hdriven hstep
  have hscheduled := hn.running (by simp [hp])
  refine ⟨fun _ _ => .inl hscheduled,h.cleaned,fun hmode hpc hdone => ?_,fun budget' hp' => ?_⟩
  · have hbefore : c.PastRx ∧ c.rx.FrontDone := by
      unfold Card.PastRx at hpc ⊢
      rw [hp] at hpc ⊢
      exact hpast hpc hdone
    exact h.harvested hmode hbefore.1 hbefore.2
  · obtain rfl := PollPc.receive.inj (hp.symm.trans hp')
    exact hruns

theorem pollStep (h : AttendedInv c) (hi : c.Transmits) (hn : NapiSound c)
    (hstep : c.pollStep = some d) : AttendedInv d := by
  have hmove := (pollStep_halves hstep).1
  have hpoll := pollStep_cases hstep
  cases hp : c.poll with
  | idle =>
    rw [hp] at hpoll
    contradiction
  | cleanTx budget =>
    rw [hp] at hpoll
    have hscheduled := hn.running (by simp [hp])
    obtain ⟨gone,queue,n,hload,hledger⟩ := hi
    obtain ⟨tx,i,packets,bytes,hloop,hpoll⟩ := hpoll
    obtain ⟨-,hload',-⟩ := cleanLoop_all hload hledger hloop
    have hclear : ∀ stats, ¬ ({ tx.cleanedTo i with stats } : Adapter).FrontDone :=
      fun stats hdone => lt_irrefl 0 ((hload'.frame stats _ _).front_done_iff.mp hdone)
    obtain ⟨-,rfl⟩ | ⟨-,rfl⟩ := hpoll <;>
      exact ⟨fun _ _ => .inl hscheduled,fun _ _ hdone => absurd hdone (hclear _),
        fun _ hpc => by contradiction,fun _ hp' => by contradiction⟩
  | flag budget =>
    rw [hp] at hpoll
    have hscheduled := hn.running (by simp [hp])
    have hcleaned := fun hmode => h.cleaned hmode (by rw [hp]; rfl)
    obtain ⟨-,rfl⟩ | ⟨-,rfl⟩ := hpoll <;>
      exact ⟨fun _ _ => .inl hscheduled,fun hmode _ => hcleaned hmode,
        fun _ hpc => by contradiction,fun _ hp' => by contradiction⟩
  | wake budget =>
    rw [hp] at hpoll
    have hscheduled := hn.running (by simp [hp])
    have hcleaned := fun hmode => h.cleaned hmode (by rw [hp]; rfl)
    subst hpoll
    exact ⟨fun _ _ => .inl hscheduled,fun hmode _ => hcleaned hmode,
      fun _ hpc => by contradiction,fun _ hp' => by contradiction⟩
  | cleanRx budget =>
    rw [hp] at hpoll
    have hscheduled := hn.running (by simp [hp])
    have hcleaned := fun hmode => h.cleaned hmode (by rw [hp]; rfl)
    obtain ⟨rx,hrx,rfl⟩ := hpoll
    obtain ⟨-,w,-,rfl⟩ := rxStep_cases hrx
    refine ⟨fun _ _ => .inl hscheduled,fun hmode _ => hcleaned hmode,
      fun _ hpc => by contradiction,fun budget' hp' => ?_⟩
    obtain rfl := PollPc.receive.inj hp'
    rfl
  | receive budget =>
    rw [hp] at hpoll
    have hscheduled := hn.running (by simp [hp])
    have hcleaned := fun hmode => h.cleaned hmode (by rw [hp]; rfl)
    obtain ⟨w,hd,⟨-,rfl⟩ | ⟨hspare,rfl⟩⟩ := hpoll
    · by_cases hmode : c.napi.mode = .disabling
      · refine of_disabled (fun henabled => ?_) (fun _ hp' => by contradiction)
        have hafter : c.napi.repoll.mode = c.napi.mode := by
          unfold Napi.repoll Napi.completeDone
          rw [if_pos hmode]
          cases c.napi.missed <;> rfl
        change c.napi.repoll.mode = .enabled at henabled
        rw [hafter,hmode] at henabled
        contradiction
      · have hsame : c.napi.repoll = c.napi := if_neg hmode
        rw [hsame]
        exact ⟨fun _ _ => .inl hscheduled,fun _ hpc => by contradiction,
          fun _ hpc => by contradiction,fun _ hp' => by contradiction⟩
    · have hpast : c.PastRx := by
        unfold Card.PastRx
        rw [hp,hd]
        exact hspare
      exact ⟨fun _ _ => .inl hscheduled,fun hmode _ => hcleaned hmode,
        fun hmode _ => h.harvested hmode hpast,fun _ hp' => by contradiction⟩
  | completeDone w =>
    rw [hp] at hpoll
    have hscheduled := hn.running (by simp [hp])
    have hcleaned := fun hmode => h.cleaned hmode (by rw [hp]; rfl)
    have hharvested := fun hmode => h.harvested hmode (by unfold Card.PastRx; rw [hp]; trivial)
    obtain ⟨-,rfl⟩ | ⟨hmiss,rfl⟩ := hpoll
    · exact ⟨fun _ _ => .inl hscheduled,fun _ hpc => by contradiction,
        fun _ hpc => by contradiction,fun _ hp' => by contradiction⟩
    · refine ⟨fun hmode hdone => .inr ?_,fun _ hpc => by contradiction,
        fun _ hpc => by contradiction,fun _ hp' => by contradiction⟩
      have hpromised : c.napi.missed = true ∨ c.tx.WillInterrupt :=
        hdone.elim (hcleaned hmode) (hharvested hmode)
      obtain hmissed | hwill := hpromised
      · rw [hmiss] at hmissed
        contradiction
      · exact hwill

theorem ndoStep {ok : Bool} (h : AttendedInv c) (hstep : c.ndoStep ok = some d) :
    AttendedInv d := by
  have hndo := ndoStep_cases hstep
  cases hf : c.iface <;> rw [hf] at hndo
  case setupInterrupts =>
    obtain ⟨-,rfl⟩ | ⟨-,rfl⟩ := hndo
    · exact h.frame rfl rfl rfl id id
    · exact of_disabled (by simp) h.runs
  case undoing => obtain ⟨-,rfl⟩ := hndo; exact of_disabled (by simp) h.runs
  case napiDisabling => obtain ⟨-,rfl⟩ := hndo; exact of_disabled (by simp) h.runs
  case napiDisable => subst hndo; exact of_disabled (by simp) h.runs
  case probing => contradiction
  case down => contradiction
  case up => contradiction
  case stopped => contradiction
  all_goals subst hndo; exact h.frame rfl rfl rfl id id

theorem step (h : AttendedInv c) (hi : c.Transmits) (hn : NapiSound c) (hok : c.Drained label)
    (hstep : c.step label = some d) : AttendedInv d := by
  have hmove := (step_halves hstep).1
  have hcases := card_cases hstep
  cases label with
  | ndo ok => exact h.ndoStep hcases
  | poll => exact h.pollStep hi hn hcases
  | register => obtain ⟨-,rfl⟩ := hcases; exact h.frame rfl rfl rfl id id
  | ndoOpen =>
    obtain ⟨hf,rfl⟩ := hcases
    have hdisabled : c.napi.mode = .disabled := by
      rw [hn.mode]
      obtain hf | hf := hf <;> rw [hf] <;> rfl
    have hidle := hn.idle hdisabled
    refine ⟨fun _ hdone => .inr (hok rfl hdone),fun _ hpc => ?_,fun _ hpc => ?_,h.runs⟩
    · change c.poll.pastTx = true at hpc
      rw [hidle] at hpc
      contradiction
    · exact absurd hidle (Card.PastRx.running hpc)
  | ndoStop => obtain ⟨-,rfl⟩ := hcases; exact h.frame rfl rfl rfl id id
  | xmit skb mapping =>
    obtain ⟨-,rfl⟩ := hcases
    exact h.frame rfl rfl rfl (hmove.will hi (by simp)) (hmove.front hi (by simp))
  | workerStart =>
    obtain ⟨-,rfl⟩ := hcases
    exact h.frame rfl rfl rfl (hmove.will hi (by simp)) (hmove.front hi (by simp))
  | workerRound kmallocOk =>
    obtain ⟨w,-,-,rfl⟩ := hcases
    exact h.round w kmallocOk
  | workerEnd =>
    obtain ⟨w,hw,heq,rfl⟩ := hcases
    exact h.workerEnd hi hn hw heq
  | interrupt =>
    obtain ⟨-,rfl⟩ := hcases
    exact h.intr
  | linkTimer =>
    obtain ⟨-,rfl⟩ := hcases
    exact intr (h.frame rfl rfl rfl id id)
  | napiPoll budget =>
    obtain ⟨⟨-,hscheduled⟩,rfl⟩ := hcases
    exact ⟨fun _ _ => .inl hscheduled,fun _ hpc => by contradiction,
      fun _ hpc => by contradiction,fun _ hp' => by contradiction⟩
  | receive rxLabel =>
    obtain ⟨⟨hdriven,hwhere⟩,rx,hrx,rfl⟩ := hcases
    by_cases hp : ∃ budget, c.poll = .receive budget
    · obtain ⟨budget,hp⟩ := hp
      exact h.receive hn hp hdriven hrx
    · -- no poll: edunic_probe, with NAPI disabled
      have hprobing : c.iface = .probing := by
        refine hwhere.resolve_left fun hreceiving => hp ?_
        cases hpc : c.poll <;> rw [hpc] at hreceiving <;> first | contradiction | exact ⟨_,rfl⟩
      refine of_disabled ?_ (fun budget hp' => absurd ⟨budget,hp'⟩ hp)
      change c.napi.mode ≠ .enabled
      rw [hn.mode,hprobing]
      simp [Iface.napiMode]
  | unmask => obtain ⟨-,rfl⟩ := hcases; exact h.frame rfl rfl rfl id id

end AttendedInv

/-- In every run in which edunic_open finds completed work only when the worker will still
interrupt, nothing completed is ever stranded while the interface is up. -/
theorem never_stranded (h : card.ReachableUnder Card.Drained c) (hup : c.iface = .up) :
    c.Unstranded := by
  have hstep : ∀ s label t, card.ReachableUnder Card.Drained s → AttendedInv s → s.Drained label →
      card.step s label = some t → AttendedInv t := fun _ _ _ hs hi hok hstep =>
    hi.step (card_transmits hs.reachable) (card_napi hs.reachable) hok hstep
  have hinv : AttendedInv c := by
    refine h.invariant ?_ hstep
    rintro s ⟨tdh,tdt,rdh,rdt,rfl⟩
    exact AttendedInv.of_disabled (by simp [probedCard]) (fun _ hp => by contradiction)
  refine hinv.front ?_
  rw [(card_napi h.reachable).mode,hup]
  rfl

/-- What edunic_open makes of the card when nothing comes between its steps. -/
def Card.opened (c : Card) : Card :=
  { c with
    tx := { c.tx with queueStopped := false }
    napi := { c.napi with mode := .enabled }
    ims := c.ims.set .all
    iface := .up
    irqRequested := true
    timerArmed := true
    unmasked := true }

theorem run_open (hiface : c.iface = .down ∨ c.iface = .stopped) :
    card.run openSteps c = some c.opened := by
  have hopen : card.step c .ndoOpen = some { c with
      napi := { c.napi with mode := .enabled }, iface := .setupInterrupts } := if_pos hiface
  rw [openSteps,Machine.run_cons,hopen]
  rfl

/-- Any other edunic_open that succeeds leaves the interface up with work stranded. -/
theorem stranded_open (h : card.Reachable c) (hiface : c.iface = .down ∨ c.iface = .stopped)
    (hdone : c.tx.FrontDone ∨ c.rx.FrontDone) (hwill : ¬ c.tx.WillInterrupt) :
    card.Reachable c.opened ∧ c.opened.iface = .up ∧ ¬ c.opened.Unstranded := by
  have hn := card_napi h
  have hdisabled : c.napi.mode = .disabled := by
    rw [hn.mode]
    obtain hf | hf := hiface <;> rw [hf] <;> rfl
  have hidle : c.napi.scheduled = false := hn.disabled hdisabled
  refine ⟨Machine.Reachable.of_run h (run_open hiface),rfl,fun hunstranded => ?_⟩
  obtain hscheduled | hw := hunstranded hdone
  · have hstill : c.napi.scheduled = true := hscheduled
    rw [hidle] at hstill
    contradiction
  · exact hwill hw

/-- A packet is sent and reclaimed in the first opening; the interface is stopped and opened
again with nothing left over, and the next packet's interrupt schedules the poll. -/
theorem never_stranded_run : ∃ c, card.ReachableUnder Card.Drained c ∧ c.tx.FrontDone ∧
    c.Unstranded := by
  have hrun : ((card.restrict Card.Drained).run (openedOnce ++ onePacket ++ onePoll ++ stopSteps ++
      openSteps ++ onePacket) (probedCard 0 0 0 0)).map (fun c => (c.iface,decide c.tx.FrontDone)) = some (.up,true) := by
    decide +kernel
  obtain ⟨c,hc,hout⟩ := Option.map_eq_some_iff.mp hrun
  obtain ⟨hf,hdone⟩ := Prod.mk.inj hout
  have hreach : card.ReachableUnder Card.Drained c := .of_run (card_init 0 0 0 0) hc
  exact ⟨c,hreach,of_decide_eq_true hdone,never_stranded hreach hf⟩

/-- One packet, and edunic_stop before the worker gets to it. -/
def lateWorker : List CardLabel :=
  [.xmit ⟨10,[1,2]⟩ (some 64),.ndoStop,.ndo true,.ndo true,.ndo true,.ndo true,.ndo true,
    .workerStart,.workerRound true,.workerEnd]

/-- A packet is on its way when the interface is stopped: its interrupt finds NAPI disabled, and
the interface comes up again with the packet done and nobody to take it. -/
theorem interrupt_lost : ∃ c, card.Reachable c ∧ c.iface = .up ∧ c.tx.FrontDone ∧
    ¬ c.Unstranded := by
  have hrun : (card.run (openedOnce ++ lateWorker ++ openSteps) (probedCard 0 0 0 0)).map (fun c => (c.iface,decide c.tx.FrontDone,c.napi.scheduled,
        decide c.tx.WillInterrupt)) = some (.up,true,false,false) := by
    decide +kernel
  obtain ⟨c,hc,hout⟩ := Option.map_eq_some_iff.mp hrun
  obtain ⟨hf,hout⟩ := Prod.mk.inj hout
  obtain ⟨hdone,hout⟩ := Prod.mk.inj hout
  obtain ⟨hidle,hwill⟩ := Prod.mk.inj hout
  have hreach : card.Reachable c := Machine.Reachable.of_run (card_init 0 0 0 0) hc
  refine ⟨c,hreach,hf,of_decide_eq_true hdone,?_⟩
  intro hunstranded
  obtain hscheduled | hw := hunstranded (.inl (of_decide_eq_true hdone))
  · rw [hidle] at hscheduled
    contradiction
  · exact of_decide_eq_false hwill hw

end NetLab.Edunic
