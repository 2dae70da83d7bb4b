import Mathlib
import NetLab.Edunic.RxPath

/-! Runs of the receive path: what one step does, and that the ring, the driver's locals and the
log stay in step with each other. -/
namespace NetLab.Edunic
open NetLab.Ring

variable {a b : RxAdapter} {c shown : ℕ} {filled : List Filled} {waiting : List Waiting}

/-- What each step of the receive path does, and when. -/
theorem rxStep_cases {label : RxLabel} (h : a.rxStep label = some b) :
    a.rxRing.allocated = true ∧
    match label with
    | .deliver frame => b = a.hwDeliverRxFrame frame
    | .clean budget => ∃ w, a.driver = .idle w ∧
        b = { a with driver := .harvesting a.rxRing.nextToClean 0 0 budget }
    | .harvest => ∃ i w k budget, a.driver = .harvesting i w k budget ∧ a.harvests i w budget ∧
        b = a.harvest i w k budget
    | .harvested => ∃ i w k budget, a.driver = .harvesting i w k budget ∧
        ¬ a.harvests i w budget ∧ b = a.harvested i w k
    | .refill skb mapping => ∃ i left posted caller, a.driver = .refilling i (left+1) posted caller ∧
        b = a.refill i left posted caller skb mapping
    | .announce => ∃ i posted caller, (a.driver = .refilling i 0 posted caller ∨
        a.driver = .broken i posted caller) ∧ b = a.announce i posted caller
    | .free => ((∃ w, a.driver = .idle w) ∨ a.driver = .failed) ∧ b = a.freeRxResources := by
  unfold RxAdapter.rxStep at h
  by_cases halloc : a.rxRing.allocated = true
  swap
  · rw [if_neg halloc] at h
    contradiction
  rw [if_pos halloc] at h
  refine ⟨halloc,?_⟩
  cases label with
  | deliver frame => exact (Option.some.inj h).symm
  | clean budget =>
    cases hd : a.driver with
    | idle w =>
      rw [hd] at h
      exact ⟨w,rfl,(Option.some.inj h).symm⟩
    | harvesting _ _ _ _ => simp [hd] at h
    | refilling _ _ _ _ => simp [hd] at h
    | broken _ _ _ => simp [hd] at h
    | failed => simp [hd] at h
  | harvest =>
    cases hd : a.driver with
    | harvesting i w k budget =>
      rw [hd] at h
      obtain ⟨hgo,rfl⟩ := guarded_eq_some.mp h
      exact ⟨i,w,k,budget,rfl,hgo,rfl⟩
    | idle _ => simp [hd] at h
    | refilling _ _ _ _ => simp [hd] at h
    | broken _ _ _ => simp [hd] at h
    | failed => simp [hd] at h
  | harvested =>
    cases hd : a.driver with
    | harvesting i w k budget =>
      rw [hd] at h
      by_cases hgo : a.harvests i w budget
      · simp [hgo] at h
      · simp only [hgo,if_false] at h
        exact ⟨i,w,k,budget,rfl,hgo,(Option.some.inj h).symm⟩
    | idle _ => simp [hd] at h
    | refilling _ _ _ _ => simp [hd] at h
    | broken _ _ _ => simp [hd] at h
    | failed => simp [hd] at h
  | refill skb mapping =>
    cases hd : a.driver with
    | refilling i left posted caller =>
      cases left with
      | zero => simp [hd] at h
      | succ left =>
        rw [hd] at h
        exact ⟨i,left,posted,caller,rfl,(Option.some.inj h).symm⟩
    | idle _ => simp [hd] at h
    | harvesting _ _ _ _ => simp [hd] at h
    | broken _ _ _ => simp [hd] at h
    | failed => simp [hd] at h
  | announce =>
    cases hd : a.driver with
    | refilling i left posted caller =>
      cases left with
      | zero =>
        rw [hd] at h
        exact ⟨i,posted,caller,.inl rfl,(Option.some.inj h).symm⟩
      | succ left => simp [hd] at h
    | broken i posted caller =>
      rw [hd] at h
      exact ⟨i,posted,caller,.inr rfl,(Option.some.inj h).symm⟩
    | idle _ => simp [hd] at h
    | harvesting _ _ _ _ => simp [hd] at h
    | failed => simp [hd] at h
  | free =>
    cases hd : a.driver with
    | idle w =>
      rw [hd] at h
      exact ⟨.inl ⟨w,rfl⟩,(Option.some.inj h).symm⟩
    | failed =>
      rw [hd] at h
      exact ⟨.inr rfl,(Option.some.inj h).symm⟩
    | harvesting _ _ _ _ => simp [hd] at h
    | refilling _ _ _ _ => simp [hd] at h
    | broken _ _ _ => simp [hd] at h

/-- The end of edunic_alloc_rx_buffers is also the end of its caller. -/
theorem announce_driver (a : RxAdapter) (i posted : ℕ) (caller : RxCaller) :
    (∃ w, (a.announce i posted caller).driver = .idle w) ∨
      (a.announce i posted caller).driver = .failed := by
  unfold RxAdapter.announce
  cases caller with
  | clean w => exact .inl ⟨w,rfl⟩
  | probe =>
    by_cases hp : posted ≠ 0
    · exact .inl ⟨0,if_pos hp⟩
    · exact .inr (if_neg hp)

/-- The receive path while the ring is there. -/
structure RxState (a : RxAdapter) (c : ℕ) (filled : List Filled) (waiting : List Waiting)
    (shown fresh missed : ℕ) (gone : List (ℕ × UInt64)) : Prop where
  loaded : RxLoaded a c filled waiting shown
  split : waiting.length = shown+fresh
  place : a.At c (filled.length+waiting.length) fresh missed
  carried : Carried a filled waiting gone
  lossless : missed = 0 ↔ Flawless a.log

namespace RxState

variable {fresh missed : ℕ} {gone : List (ℕ × UInt64)}

theorem flawless_note (h : RxState a c filled waiting shown fresh missed gone) {es : List RxEvent}
    (hlog : b.log = a.log ++ es) (hes : Flawless es) : missed = 0 ↔ Flawless b.log := by
  rw [hlog,flawless_append,h.lossless]
  exact ⟨fun hall => ⟨hall,hes⟩,fun hall => hall.1⟩

theorem deliver (h : RxState a c filled waiting shown fresh missed gone) (frame : List UInt8) :
    ∃ filled' waiting' shown', RxState (a.hwDeliverRxFrame frame) c filled' waiting' shown' fresh
      missed gone := by
  cases shown with
  | zero =>
    have hgo := h.loaded.drop frame
    rw [hgo]
    refine ⟨filled,waiting,0,h.loaded.frame _ _ _,h.split,h.place,h.carried.drop rfl rfl,?_⟩
    exact h.flawless_note rfl (by simp [Flawless,RxEvent.failure])
  | succ shown =>
    cases waiting with
    | nil =>
      have hsplit := h.split
      rw [List.length_nil] at hsplit
      omega
    | cons e waiting =>
      obtain ⟨f,rfl,hframe,hload,hlog⟩ := h.loaded.deliver frame
      have hne : ¬ a.rdh = a.rdt := by
        rw [h.loaded.no_buffer_iff]
        exact Nat.succ_ne_zero shown
      have hsplit := h.split
      have hplace := h.place
      have hsum : (filled++[f]).length+waiting.length = filled.length+(f.toWaiting::waiting).length := by
        simp only [List.length_append,List.length_cons,List.length_nil]
        omega
      rw [List.length_cons] at hsplit
      have hstats : (a.hwDeliverRxFrame frame).stats = a.stats := by
        unfold RxAdapter.hwDeliverRxFrame
        rw [if_neg hne]
        rfl
      have hdriver : (a.hwDeliverRxFrame frame).At c ((filled++[f]).length+waiting.length) fresh
          missed := by
        rw [hsum]
        unfold RxAdapter.hwDeliverRxFrame
        rw [if_neg hne]
        exact hplace
      refine ⟨filled++[f],waiting,shown,hload,by omega,hdriver,h.carried.receive hlog hstats,?_⟩
      exact h.flawless_note hlog (by simp [Flawless,RxEvent.failure])

/-- The loop of edunic_clean_rx_irq goes on only where a frame is. -/
theorem front_filled (h : RxState a c filled waiting shown fresh missed gone)
    (hdone : (a.rxRing.desc c).done = true) : ∃ f rest, filled = f::rest := by
  cases filled with
  | cons f rest => exact ⟨f,rest,rfl⟩
  | nil =>
    exfalso
    have hslots := h.loaded.slots
    cases waiting with
    | nil =>
      have hvacant := hslots.rest c h.loaded.start_lt not_within_zero
      have hclear : (a.rxRing.desc c).done = false := hvacant.2
      rw [hdone] at hclear
      contradiction
    | cons e waiting =>
      have hslot : a.rxRing.slot c = e.slot := hslots.front h.loaded.start_lt
      have hdesc : a.rxRing.desc c = ⟨e.dma,0,0,0⟩ := congrArg Prod.fst hslot
      rw [hdesc,RxDesc.done_cleared] at hdone
      contradiction

theorem clean (h : RxState a c filled waiting shown fresh missed gone) {w : ℕ}
    (hd : a.driver = .idle w) (budget : ℤ) :
    RxState { a with driver := .harvesting a.rxRing.nextToClean 0 0 budget } c filled waiting shown
      fresh missed gone := by
  have hplace := h.place
  unfold RxAdapter.At at hplace
  rw [hd] at hplace
  obtain ⟨rfl,hfresh,hsum⟩ := hplace
  refine ⟨h.loaded.frame _ _ _,h.split,?_,h.carried.frame rfl rfl,h.lossless⟩
  exact ⟨rfl,(cell_zero h.loaded.start_lt).symm,rfl,hfresh,hsum⟩

theorem harvest (h : RxState a c filled waiting shown fresh missed gone) {i w k : ℕ} {budget : ℤ}
    (hd : a.driver = .harvesting i w k budget) (hgo : a.harvests i w budget) :
    ∃ c' filled' gone', RxState (a.harvest i w k budget) c' filled' waiting shown fresh missed
      gone' := by
  have hplace := h.place
  unfold RxAdapter.At at hplace
  rw [hd] at hplace
  obtain ⟨rfl,hc,rfl,hfresh,hsum⟩ := hplace
  obtain ⟨f,rest,rfl⟩ := h.front_filled hgo.2
  obtain ⟨hload,hlog,hstats⟩ := h.loaded.harvest w w budget
  refine ⟨cell ringSize i 1,rest,_,hload,h.split,?_,h.carried.handUp hlog hstats,?_⟩
  · rw [List.length_cons] at hsum
    simp only [ringSize] at hsum
    change next i = cell ringSize i 1 ∧ cell ringSize i 1 =
      cell ringSize a.rxRing.nextToClean ((w+1) % 65536) ∧ w+1 = (w+1) % 65536 ∧ fresh = 0 ∧
        rest.length+waiting.length+(w+1) % 65536+missed = ringSize-1
    rw [Nat.mod_eq_of_lt (by omega)]
    refine ⟨next_eq i,?_,rfl,hfresh,?_⟩
    · nth_rewrite 1 [hc]
      rw [cell_cell]
    · simp only [ringSize]
      omega
  · exact h.flawless_note hlog (by simp [Flawless,RxEvent.failure])

theorem harvested (h : RxState a c filled waiting shown fresh missed gone) {i w k : ℕ} {budget : ℤ}
    (hd : a.driver = .harvesting i w k budget) :
    RxState (a.harvested i w k) c filled waiting shown fresh missed gone := by
  have hplace := h.place
  unfold RxAdapter.At at hplace
  rw [hd] at hplace
  obtain ⟨rfl,hc,rfl,rfl,hsum⟩ := hplace
  have hload : RxLoaded { a with rxRing := { a.rxRing with nextToClean := i } } i filled waiting
      shown :=
    ⟨h.loaded.allocated,h.loaded.count,h.loaded.start_lt,h.loaded.start_lt,h.loaded.room,h.loaded.shown_le,
      h.loaded.head,h.loaded.tail,h.loaded.use,h.loaded.slots⟩
  unfold RxAdapter.harvested
  by_cases hw : w ≠ 0
  · rw [if_pos hw]
    refine ⟨hload.frame _ _ _,h.split,?_,h.carried.frame rfl rfl,h.lossless⟩
    refine ⟨rfl,?_,rfl,hsum⟩
    have hsplit := h.split
    rw [Nat.add_zero] at hsplit
    rw [hsplit]
    exact h.loaded.use.trans h.loaded.tail
  · rw [if_neg hw]
    have hzero : w = 0 := by simpa using hw
    refine ⟨hload.frame _ _ _,h.split,?_,h.carried.frame rfl rfl,h.lossless⟩
    exact ⟨rfl,rfl,by omega⟩

theorem refill (h : RxState a c filled waiting shown fresh missed gone) {i left posted : ℕ}
    {caller : RxCaller} (hd : a.driver = .refilling i (left+1) posted caller)
    (skb : Option SkBuff) (mapping : Option UInt64) :
    ∃ waiting' fresh' missed', RxState (a.refill i left posted caller skb mapping) c filled waiting'
      shown fresh' missed' gone := by
  have hplace := h.place
  unfold RxAdapter.At at hplace
  rw [hd] at hplace
  obtain ⟨hc,hi,hfresh,hsum⟩ := hplace
  have hlost : ∀ {es : List RxEvent}, (∃ e ∈ es, e.failure = true) →
      (missed+(left+1) = 0 ↔ Flawless (a.log++es)) := by
    rintro es ⟨e,he,hf⟩
    constructor
    · omega
    · intro hall
      rw [hall e (List.mem_append_right _ he)] at hf
      contradiction
  cases skb with
  | none =>
    have hledger : rxCustody.Ledger (a.log++[.allocFailed]) gone (loans filled waiting) :=
      h.carried.ledger.silent rfl rfl rfl rfl
    refine ⟨waiting,fresh,missed+(left+1),h.loaded.frame _ _ _,h.split,?_,
      h.carried.note rfl rfl hledger rfl rfl rfl,hlost ⟨.allocFailed,by simp,rfl⟩⟩
    exact ⟨hc,hi,hfresh,by omega,by omega⟩
  | some skb =>
    cases mapping with
    | none =>
      have hledger : rxCustody.Ledger (a.log++[.alloc skb,.mapFailed,.kfree skb]) gone
          (loans filled waiting) := Custody.Ledger.pass h.carried.ledger rfl rfl rfl rfl
      refine ⟨waiting,fresh,missed+(left+1),h.loaded.frame _ _ _,h.split,?_,
        h.carried.note rfl rfl hledger rfl rfl rfl,hlost ⟨.mapFailed,by simp,rfl⟩⟩
      exact ⟨hc,hi,hfresh,by omega,by omega⟩
    | some dma =>
      have hloans : loans filled (waiting++[⟨skb,dma⟩]) = loans filled waiting ++ [(skb.id,dma)] := by
        simp [loans,Waiting.loan]
      have hledger : rxCustody.Ledger (a.log++[.alloc skb,.map skb dma]) gone
          (loans filled (waiting++[⟨skb,dma⟩])) := by
        rw [hloans]
        exact Custody.Ledger.lend h.carried.ledger rfl rfl rfl rfl
      have hroom : filled.length+waiting.length+1 < ringSize := by
        simp only [ringSize] at hsum ⊢
        omega
      have hlen : (waiting++[(⟨skb,dma⟩ : Waiting)]).length = waiting.length+1 := by simp
      refine ⟨waiting++[⟨skb,dma⟩],fresh+1,missed,h.loaded.post hroom hi left posted caller skb dma,
        ?_,?_,h.carried.note rfl rfl hledger rfl rfl rfl,?_⟩
      · rw [hlen,h.split,Nat.add_assoc]
      · rw [hlen]
        refine ⟨hc,?_,congrArg (· + 1) hfresh,by omega⟩
        rw [hi,next_cell,Nat.add_assoc]
      · exact h.flawless_note rfl (by simp [Flawless,RxEvent.failure])

/-- The end of edunic_alloc_rx_buffers leads to a boundary of the driver. -/
theorem announce (h : RxState a c filled waiting shown fresh missed gone) {i posted : ℕ}
    {caller : RxCaller} (hd : a.driver = .refilling i 0 posted caller ∨
      a.driver = .broken i posted caller) :
    RxState (a.announce i posted caller) c filled waiting waiting.length 0 missed gone := by
  have hplace : c = a.rxRing.nextToClean ∧ i = cell ringSize c (filled.length+waiting.length) ∧
      fresh = posted ∧ filled.length+waiting.length+missed = ringSize-1 := by
    have hplace := h.place
    unfold RxAdapter.At at hplace
    rcases hd with hd | hd <;> rw [hd] at hplace
    · exact hplace
    · obtain ⟨hc,hi,hfresh,hsum,-⟩ := hplace
      exact ⟨hc,hi,hfresh,hsum⟩
  obtain ⟨hc,hi,rfl,hsum⟩ := hplace
  have hrest : (a.announce i fresh caller).rxRing.nextToClean = a.rxRing.nextToClean ∧
      (a.announce i fresh caller).log = a.log ∧ (a.announce i fresh caller).stats = a.stats := by
    unfold RxAdapter.announce
    by_cases hp : fresh ≠ 0 <;> cases caller <;> simp [hp]
  obtain ⟨hclean,hlog,hstats⟩ := hrest
  have hat : (a.announce i fresh caller).At c (filled.length+waiting.length) 0 missed := by
    have hboundary : c = (a.announce i fresh caller).rxRing.nextToClean ∧ 0 = 0 ∧
        filled.length+waiting.length+missed = ringSize-1 := ⟨by rw [hclean]; exact hc,rfl,hsum⟩
    unfold RxAdapter.At
    rcases announce_driver a i fresh caller with ⟨w,hw⟩ | hfailed
    · rw [hw]
      exact hboundary
    · rw [hfailed]
      exact hboundary
  refine ⟨h.loaded.announce hi h.split caller,rfl,hat,h.carried.frame hlog hstats,?_⟩
  rw [hlog]
  exact h.lossless

end RxState

/-- The ring in use, or given back. -/
def RxInv (a : RxAdapter) : Prop :=
  (∃ c filled waiting shown fresh missed gone, RxState a c filled waiting shown fresh missed gone) ∨
    RxEnded a

theorem probedRx_inv (rdh rdt : ℕ) : RxInv (probedRx emptyRxRing rdh rdt) := by
  refine .inl ⟨0,[],[],0,0,0,[],?_,rfl,?_,?_,?_⟩
  · refine ⟨rfl,rfl,ringSize_pos,ringSize_pos,ringSize_pos,le_rfl,rfl,rfl,rfl,Holds.empty fun k _ => ?_⟩
    exact ⟨rfl,RxDesc.done_cleared _ _ _⟩
  · exact ⟨rfl,rfl,rfl,rfl⟩
  · exact ⟨Custody.Ledger.empty,rfl,rfl,rfl,rfl,rfl⟩
  · exact ⟨fun _ _ he => absurd he (by simp [probedRx,RxAdapter.allocRxBuffers,
      RxAdapter.hwInitRings]),fun _ => rfl⟩

/-- Every step but the removal keeps the queue of buffers. -/
theorem rxStep_state {label : RxLabel} {fresh missed : ℕ} {gone : List (ℕ × UInt64)}
    (hs : RxState a c filled waiting shown fresh missed gone) (hremains : label ≠ .free)
    (h : a.rxStep label = some b) :
    ∃ c filled waiting shown fresh missed gone, RxState b c filled waiting shown fresh missed gone := by
  obtain ⟨-,hstep⟩ := rxStep_cases h
  cases label with
  | deliver frame =>
    obtain ⟨filled',waiting',shown',hs'⟩ := hs.deliver frame
    rw [hstep]
    exact ⟨c,filled',waiting',shown',fresh,missed,gone,hs'⟩
  | clean budget =>
    obtain ⟨w,hd,rfl⟩ := hstep
    exact ⟨c,filled,waiting,shown,fresh,missed,gone,hs.clean hd budget⟩
  | harvest =>
    obtain ⟨i,w,k,budget,hd,hgo,rfl⟩ := hstep
    obtain ⟨c',filled',gone',hs'⟩ := hs.harvest hd hgo
    exact ⟨c',filled',waiting,shown,fresh,missed,gone',hs'⟩
  | harvested =>
    obtain ⟨i,w,k,budget,hd,-,rfl⟩ := hstep
    exact ⟨c,filled,waiting,shown,fresh,missed,gone,hs.harvested hd⟩
  | refill skb mapping =>
    obtain ⟨i,left,posted,caller,hd,rfl⟩ := hstep
    obtain ⟨waiting',fresh',missed',hs'⟩ := hs.refill hd skb mapping
    exact ⟨c,filled,waiting',shown,fresh',missed',gone,hs'⟩
  | announce =>
    obtain ⟨i,posted,caller,hd,rfl⟩ := hstep
    exact ⟨c,filled,waiting,_,0,missed,gone,hs.announce hd⟩
  | free => contradiction

/-- Every step of the receive path keeps the queue of buffers. -/
theorem rxStep_inv {label : RxLabel} (hi : RxInv a) (h : a.rxStep label = some b) : RxInv b := by
  obtain ⟨halloc,hstep⟩ := rxStep_cases h
  rcases hi with ⟨c,filled,waiting,shown,fresh,missed,gone,hs⟩ | hended
  swap
  · rw [hended.released] at halloc
    contradiction
  by_cases hfree : label = .free
  · subst hfree
    obtain ⟨-,rfl⟩ := hstep
    exact .inr (hs.loaded.remove hs.carried)
  · exact .inl (rxStep_state hs hfree h)

theorem rxPath_inv (h : rxPath.Reachable a) : RxInv a := by
  have hstep : ∀ s label t, rxPath.Reachable s → RxInv s → True → rxPath.step s label = some t →
      RxInv t := fun _ _ _ _ hi _ hstep => rxStep_inv hi hstep
  refine h.invariant ?_ hstep
  rintro s ⟨descOk,bufOk,ring,rdh,rdt,hring,rfl⟩
  unfold setupRxResources at hring
  cases descOk <;> cases bufOk <;> simp only [Bool.false_eq_true,if_false,if_true] at hring
  · contradiction
  · contradiction
  · contradiction
  · obtain rfl := Option.some.inj hring
    exact probedRx_inv _ _

end NetLab.Edunic
