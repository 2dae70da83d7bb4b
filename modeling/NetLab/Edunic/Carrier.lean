import Mathlib
import NetLab.Edunic.CardRuns

/-! The carrier and the administrative state. The link timer outlives the edunic_open that has
armed it: it turns the carrier on whenever it expires. -/
namespace NetLab.Edunic

/-- In edunic_open, the timer not yet armed. -/
def Iface.arming : Iface → Bool
  | .setupInterrupts | .hwStart | .linkTimer => true
  | _ => false

/-- From the hrtimer_start of edunic_open to the netif_carrier_off of edunic_stop. -/
def Iface.linkPhase : Iface → Bool
  | .startQueue | .up | .hwStop | .freeInterrupts | .napiDisable | .napiDisabling
  | .carrierOff => true
  | _ => false

/-- The carrier is off while the interface is stopped; in an edunic_open and after it the carrier
is off until the timer armed there has expired. -/
structure CarrierFollows (c : Card) : Prop where
  stopped : c.iface = .stopped → c.carrier = false
  opening : c.iface.arming = true → c.carrier = false
  opened : c.iface.linkPhase = true → c.timerArmed = true → c.carrier = false

/-- The link timer expires only between the hrtimer_start of edunic_open and the
netif_carrier_off of edunic_stop. -/
def Card.Timely (c : Card) (label : CardLabel) : Prop :=
  label = .linkTimer → c.iface.linkPhase = true

instance (c : Card) (label : CardLabel) : Decidable (c.Timely label) :=
  inferInstanceAs (Decidable (_ → _))

variable {c d : Card}

/-- No report of the link is left in ICR, and the carrier is on only where it may be. -/
structure CarrierInv (c : Card) : Prop where
  reported : c.icr.lsc = false
  carried : c.carrier = true → c.iface.linkPhase = true ∧ c.timerArmed = false

namespace CarrierInv

theorem follows (h : CarrierInv c) : CarrierFollows c := by
  refine ⟨fun hf => ?_,fun hf => ?_,fun _ harmed => ?_⟩
  · by_contra hon
    obtain ⟨hphase,-⟩ := h.carried (by simpa using hon)
    rw [hf] at hphase
    contradiction
  · by_contra hon
    obtain ⟨hphase,-⟩ := h.carried (by simpa using hon)
    cases hi : c.iface <;> rw [hi] at hf hphase <;> contradiction
  · by_contra hon
    obtain ⟨-,hfired⟩ := h.carried (by simpa using hon)
    rw [harmed] at hfired
    contradiction

/-- Steps that have nothing to do with the link. -/
theorem frame (h : CarrierInv c) (hlsc : d.icr.lsc = c.icr.lsc) (hcarrier : d.carrier = c.carrier)
    (hiface : d.iface = c.iface) (htimer : d.timerArmed = c.timerArmed) : CarrierInv d := by
  obtain ⟨hreported,hcarried⟩ := h
  rw [← hlsc] at hreported
  rw [← hcarrier,← hiface,← htimer] at hcarried
  exact ⟨hreported,hcarried⟩

/-- Without a report of the link an interrupt leaves the carrier alone. -/
theorem intr (h : CarrierInv c) : CarrierInv c.intr := by
  refine ⟨intr_lsc c,?_⟩
  rw [intr_carrier,h.reported,intr_iface,intr_timerArmed]
  exact h.carried

/-- An expiry in time. -/
theorem linkTimerFn (hphase : c.iface.linkPhase = true) : CarrierInv c.linkTimerFn := by
  refine ⟨intr_lsc _,fun _ => ?_⟩
  unfold Card.linkTimerFn
  rw [intr_iface,intr_timerArmed]
  exact ⟨hphase,rfl⟩

theorem ndoStep {ok : Bool} (h : CarrierInv c) (hstep : c.ndoStep ok = some d) : CarrierInv d := by
  obtain ⟨hreported,hcarried⟩ := h
  have hndo := ndoStep_cases hstep
  cases hf : c.iface <;> rw [hf] at hndo hcarried
  case setupInterrupts =>
    obtain ⟨-,rfl⟩ | ⟨-,rfl⟩ := hndo <;>
      exact ⟨hreported,fun hon => absurd (hcarried hon).1 (by decide)⟩
  case undoing =>
    obtain ⟨-,rfl⟩ := hndo
    exact ⟨hreported,fun hon => absurd (hcarried hon).1 (by decide)⟩
  case linkTimer =>
    subst hndo
    exact ⟨hreported,fun hon => absurd (hcarried hon).1 (by decide)⟩
  case carrierOff =>
    subst hndo
    exact ⟨hreported,fun hon => by contradiction⟩
  case napiDisabling =>
    obtain ⟨-,rfl⟩ := hndo
    exact ⟨hreported,hcarried⟩
  case probing => contradiction
  case down => contradiction
  case up => contradiction
  case stopped => contradiction
  all_goals subst hndo; exact ⟨hreported,hcarried⟩

theorem step {label : CardLabel} (h : CarrierInv c) (hok : c.Timely label)
    (hstep : c.step label = some d) : CarrierInv d := by
  have hcases := card_cases hstep
  cases label with
  | ndo ok => exact h.ndoStep hcases
  | linkTimer =>
    obtain ⟨-,rfl⟩ := hcases
    exact linkTimerFn (hok rfl)
  | interrupt =>
    obtain ⟨-,rfl⟩ := hcases
    exact h.intr
  | workerEnd =>
    obtain ⟨w,-,-,rfl⟩ := hcases
    rw [workerEnd_eq]
    by_cases hsent : w.sentAny
    · rw [if_pos hsent]
      exact intr (h.frame (Bool.or_false _) rfl rfl rfl)
    · rw [if_neg hsent]
      exact h.frame rfl rfl rfl rfl
  | workerRound kmallocOk =>
    obtain ⟨w,-,-,rfl⟩ := hcases
    obtain ⟨rx,icr,hround,hlsc,-⟩ := workerRound_eq c w kmallocOk
    rw [hround]
    exact h.frame hlsc rfl rfl rfl
  | poll =>
    obtain ⟨hicr,hcarrier,hiface,htimer,-⟩ := pollStep_rest hcases
    exact h.frame (by rw [hicr]) hcarrier hiface htimer
  | register =>
    obtain ⟨hf,rfl⟩ := hcases
    refine ⟨h.reported,fun hon => ?_⟩
    have hphase := (h.carried hon).1
    rw [hf] at hphase
    contradiction
  | ndoOpen =>
    obtain ⟨hf,rfl⟩ := hcases
    refine ⟨h.reported,fun hon => ?_⟩
    have hphase := (h.carried hon).1
    obtain hf | hf := hf <;> rw [hf] at hphase <;> contradiction
  | ndoStop =>
    obtain ⟨hf,rfl⟩ := hcases
    exact ⟨h.reported,fun hon => ⟨rfl,(h.carried hon).2⟩⟩
  | receive label =>
    obtain ⟨-,rx,-,rfl⟩ := hcases
    exact h.frame rfl rfl rfl rfl
  | xmit skb mapping => obtain ⟨-,rfl⟩ := hcases; exact h.frame rfl rfl rfl rfl
  | workerStart => obtain ⟨-,rfl⟩ := hcases; exact h.frame rfl rfl rfl rfl
  | napiPoll budget => obtain ⟨-,rfl⟩ := hcases; exact h.frame rfl rfl rfl rfl
  | unmask => obtain ⟨-,rfl⟩ := hcases; exact h.frame rfl rfl rfl rfl

end CarrierInv

/-- In every run in which the link timer expires in time only, the carrier follows the
administrative state. -/
theorem carrier_follows (h : card.ReachableUnder Card.Timely c) : CarrierFollows c := by
  have hstep : ∀ s label t, card.ReachableUnder Card.Timely s → CarrierInv s → s.Timely label →
      card.step s label = some t → CarrierInv t := fun _ _ _ _ hi hok hstep => hi.step hok hstep
  have hinv : CarrierInv c := by
    refine h.invariant ?_ hstep
    rintro s ⟨tdh,tdt,rdh,rdt,rfl⟩
    exact ⟨rfl,fun hon => by contradiction⟩
  exact hinv.follows

/-- Any other expiry turns the carrier on where it may not be on. -/
theorem late_expiry (hiface : c.iface = .stopped ∨ c.iface.arming = true) :
    ¬ CarrierFollows c.linkTimerFn := by
  intro hfollows
  have hcarrier : c.linkTimerFn.carrier = true := by
    unfold Card.linkTimerFn
    rw [intr_carrier]
    simp [Causes.set]
  have hsame : c.linkTimerFn.iface = c.iface := intr_iface _
  obtain hf | hf := hiface
  · have hoff := hfollows.stopped (by rw [hsame,hf])
    rw [hcarrier] at hoff
    contradiction
  · have hoff := hfollows.opening (by rw [hsame,hf])
    rw [hcarrier] at hoff
    contradiction

def expiry : List CardLabel := [.linkTimer]

/-- The timer expires, the interface is stopped and opened again. -/
theorem carrier_follows_run : ∃ c, card.ReachableUnder Card.Timely c ∧
    (c.iface,c.timerArmed,c.carrier) = (.up,true,false) ∧ CarrierFollows c := by
  have hrun : ((card.restrict Card.Timely).run (openedOnce ++ expiry ++ stopSteps ++
      openSteps) (probedCard 0 0 0 0)).map
      (fun c => (c.iface,c.timerArmed,c.carrier)) = some (.up,true,false) := by
    decide +kernel
  obtain ⟨c,hc,hout⟩ := Option.map_eq_some_iff.mp hrun
  have hreach : card.ReachableUnder Card.Timely c := .of_run (card_init 0 0 0 0) hc
  exact ⟨c,hreach,hout,carrier_follows hreach⟩

/-- The timer armed by edunic_open expires after edunic_stop. -/
theorem expiry_after_stop : ∃ c, card.Reachable c ∧ c.iface = .stopped ∧ c.carrier = true ∧
    ¬ CarrierFollows c := by
  have hrun : (card.run (openedOnce ++ stopSteps ++ expiry) (probedCard 0 0 0 0)).map
      (fun c => (c.iface,c.carrier)) = some (.stopped,true) := by
    decide +kernel
  obtain ⟨c,hc,hout⟩ := Option.map_eq_some_iff.mp hrun
  obtain ⟨hf,hon⟩ := Prod.mk.inj hout
  have hreach : card.Reachable c := Machine.Reachable.of_run (card_init 0 0 0 0) hc
  refine ⟨c,hreach,hf,hon,fun hfollows => ?_⟩
  have hoff := hfollows.stopped hf
  rw [hon] at hoff
  contradiction

end NetLab.Edunic
