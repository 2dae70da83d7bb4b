import Mathlib
import NetLab.Edunic.RxSound

/-! Capacity of the receive ring. edunic_clean_rx_irq asks for as many buffers as it has
harvested and does not look at how many it got, so a shortfall is never made up: the ring is full
again after a refill exactly when no allocation has ever failed, and a ring without buffers stays
without. -/
namespace NetLab.Edunic
open NetLab.Ring

variable {a b : RxAdapter} {c shown fresh missed : ℕ} {filled : List Filled}
  {waiting : List Waiting} {gone : List (ℕ × UInt64)}

/-- In a refill for edunic_clean_rx_irq, the buffers posted and those still to come are those
harvested, at least one. -/
def RxDriver.Counts : RxDriver → Prop
  | .harvesting _ workDone cleanedCount _ => cleanedCount = workDone % 65536
  | .refilling _ left posted (.clean workDone) => posted+left = workDone % 65536 ∧ 0 < posted+left
  | _ => True

theorem rxStep_counts {label : RxLabel} (hi : a.driver.Counts) (h : a.rxStep label = some b) :
    b.driver.Counts ∨ b.rxRing.allocated = false := by
  obtain ⟨halloc,hstep⟩ := rxStep_cases h
  cases label with
  | deliver frame =>
    have hdriver : (a.hwDeliverRxFrame frame).driver = a.driver := by
      unfold RxAdapter.hwDeliverRxFrame
      by_cases he : a.rdh = a.rdt
      · rw [if_pos he]
        rfl
      · rw [if_neg he]
        rfl
    rw [hstep,hdriver]
    exact .inl hi
  | clean budget =>
    obtain ⟨w,-,rfl⟩ := hstep
    exact .inl rfl
  | harvest =>
    obtain ⟨i,w,k,budget,hd,-,rfl⟩ := hstep
    rw [hd] at hi
    have hk : k = w % 65536 := hi
    left
    change (k+1) % 65536 = (w+1) % 65536
    omega
  | harvested =>
    obtain ⟨i,w,k,budget,hd,-,rfl⟩ := hstep
    rw [hd] at hi
    left
    unfold RxAdapter.harvested
    by_cases hk : k ≠ 0
    · rw [if_pos hk]
      exact ⟨(Nat.zero_add k).trans hi,by omega⟩
    · rw [if_neg hk]
      trivial
  | refill skb mapping =>
    obtain ⟨i,left,posted,caller,hd,rfl⟩ := hstep
    rw [hd] at hi
    left
    cases skb with
    | none => trivial
    | some skb =>
      cases mapping with
      | none => trivial
      | some dma =>
        cases caller with
        | probe => trivial
        | clean w =>
          obtain ⟨hsum,hpos⟩ := hi
          exact ⟨by omega,by omega⟩
  | announce =>
    obtain ⟨i,posted,caller,-,rfl⟩ := hstep
    left
    rcases announce_driver a i posted caller with ⟨w,hw⟩ | hfailed
    · rw [hw]
      trivial
    · rw [hfailed]
      trivial
  | free =>
    obtain ⟨-,rfl⟩ := hstep
    right
    unfold RxAdapter.freeRxResources
    rw [if_pos halloc]

theorem rxPath_counts (h : rxPath.Reachable a) (halloc : a.rxRing.allocated = true) :
    a.driver.Counts := by
  have hall : a.driver.Counts ∨ a.rxRing.allocated = false := by
    have hstep : ∀ s label t, rxPath.Reachable s →
        (s.driver.Counts ∨ s.rxRing.allocated = false) → True → rxPath.step s label = some t →
        t.driver.Counts ∨ t.rxRing.allocated = false := by
      intro s label t _ hi _ hs
      rcases hi with hi | hfreed
      · exact rxStep_counts hi hs
      · rw [(rxStep_cases hs).1] at hfreed
        contradiction
    refine h.invariant ?_ hstep
    rintro s ⟨descOk,bufOk,ring,rdh,rdt,-,rfl⟩
    exact .inl trivial
  rcases hall with hi | hfreed
  · exact hi
  · rw [halloc] at hfreed
    contradiction

/-! ### After a refill -/

/-- The buffers in the ring after a call are those of a full ring but for what failed
allocations have cost. -/
theorem RxState.posted_boundary (h : RxState a c filled waiting shown fresh missed gone) {w : ℕ}
    (hd : a.driver = .idle w) : a.posted+missed = ringSize-1 := by
  have hsplit := h.split
  have hroom := h.loaded.room
  have hplace := h.place
  unfold RxAdapter.At at hplace
  rw [hd] at hplace
  obtain ⟨hc,rfl,hsum⟩ := hplace
  have hposted := h.posted_eq (k := 0) (by rw [cell_zero h.loaded.clean_lt]; exact hc) (by omega)
  omega

/-- A refill that gets everything it asks for fills the ring exactly when no allocation of the
run has failed. -/
theorem RxState.refilled_iff (h : RxState a c filled waiting shown fresh missed gone)
    {i posted w : ℕ} (hd : a.driver = .refilling i 0 posted (.clean w)) :
    (a.announce i posted (.clean w)).posted = 255 ↔ Flawless a.log := by
  have hafter := h.announce (.inl hd)
  have hsum := hafter.posted_boundary (w := w) rfl
  rw [← h.lossless]
  simp only [ringSize] at hsum
  omega

/-! ### A ring without buffers -/

/-- No slot has a buffer. -/
def Bare (a : RxAdapter) : Prop := ∀ k, k < ringSize → (a.rxRing.buf k).skb = none

/-- An allocation and a mapping that succeed. -/
def RxLabel.Succeeds : RxLabel → Prop
  | .refill skb mapping => skb ≠ none ∧ mapping ≠ none
  | _ => True

/-- Some later calls of the driver, with every allocation and mapping succeeding, give the ring
a buffer. -/
def Recovers (a : RxAdapter) : Prop :=
  ∃ labels b, (∀ label ∈ labels, label.Succeeds) ∧ rxPath.run labels a = some b ∧ ¬ Bare b

theorem RxState.bare_iff (h : RxState a c filled waiting shown fresh missed gone) :
    Bare a ↔ filled.length+waiting.length = 0 := by
  constructor
  · intro hbare
    by_contra hpos
    have hused := (h.loaded.used_iff (cell_lt ringSize_pos)).mpr
      ⟨0,Nat.pos_of_ne_zero hpos,rfl⟩
    exact hused (hbare _ (cell_lt ringSize_pos))
  · intro hzero k hk
    by_contra hused
    obtain ⟨j,hj,-⟩ := (h.loaded.used_iff hk).mp hused
    omega

/-- Every slot is lost to a failed allocation. -/
def Lost (a : RxAdapter) : Prop :=
  (∃ c shown fresh gone, RxState a c [] [] shown fresh (ringSize-1) gone) ∨ RxEnded a

theorem Lost.bare (h : Lost a) : Bare a := by
  rcases h with ⟨c,shown,fresh,gone,hs⟩ | hended
  · exact hs.bare_iff.mpr rfl
  · exact hended.empty

/-- What is lost stays lost. -/
theorem Lost.step {label : RxLabel} (hi : Lost a) (h : a.rxStep label = some b) : Lost b := by
  obtain ⟨halloc,hstep⟩ := rxStep_cases h
  rcases hi with ⟨c,shown,fresh,gone,hs⟩ | hended
  swap
  · rw [hended.released] at halloc
    contradiction
  have hshown : shown = 0 := Nat.le_zero.mp hs.loaded.shown_le
  subst hshown
  have hplace := hs.place
  unfold RxAdapter.At at hplace
  cases label with
  | deliver frame =>
    rw [hstep,hs.loaded.drop frame]
    refine .inl ⟨c,0,fresh,gone,hs.loaded.frame _ _ _,hs.split,hs.place,hs.carried.drop rfl rfl,?_⟩
    exact hs.flawless_note rfl (by simp [Flawless,RxEvent.failure])
  | clean budget =>
    obtain ⟨w,hd,rfl⟩ := hstep
    exact .inl ⟨c,0,fresh,gone,hs.clean hd budget⟩
  | harvest =>
    obtain ⟨i,w,k,budget,hd,hgo,rfl⟩ := hstep
    rw [hd] at hplace
    obtain ⟨rfl,-⟩ := hplace
    obtain ⟨f,rest,he⟩ := hs.front_filled hgo.2
    contradiction
  | harvested =>
    obtain ⟨i,w,k,budget,hd,-,rfl⟩ := hstep
    exact .inl ⟨c,0,fresh,gone,hs.harvested hd⟩
  | refill skb mapping =>
    obtain ⟨i,left,posted,caller,hd,rfl⟩ := hstep
    rw [hd] at hplace
    obtain ⟨-,-,-,hsum⟩ := hplace
    omega
  | announce =>
    obtain ⟨i,posted,caller,hd,rfl⟩ := hstep
    exact .inl ⟨c,_,0,gone,hs.announce hd⟩
  | free =>
    obtain ⟨-,rfl⟩ := hstep
    exact .inr (hs.loaded.remove hs.carried)

theorem Lost.run {labels : List RxLabel} (hi : Lost a) (h : rxPath.run labels a = some b) :
    Lost b := by
  induction labels generalizing a with
  | nil => exact Option.some.inj h ▸ hi
  | cons label labels ih =>
    obtain ⟨t,ht,hrun⟩ := Option.bind_eq_some_iff.mp h
    exact ih (hi.step ht) hrun

theorem Lost.not_recovers (h : Lost a) : ¬ Recovers a := by
  rintro ⟨labels,b,-,hrun,hb⟩
  exact hb (h.run hrun).bare

/-- A refill that has still to ask for a buffer can get one. -/
theorem RxState.recovers_refilling (h : RxState a c filled waiting shown fresh missed gone)
    {i left posted : ℕ} {caller : RxCaller} (hd : a.driver = .refilling i (left+1) posted caller) :
    Recovers a := by
  have hi := (h.post_vacant hd).1
  refine ⟨[.refill (some ⟨0,[]⟩) (some 1)],a.refill i left posted caller (some ⟨0,[]⟩) (some 1),
    by simp [RxLabel.Succeeds],?_,fun hbare => ?_⟩
  · simp [rxPath,RxAdapter.rxStep,h.loaded.allocated,hd]
  · have hnone := hbare i hi
    simp [RxAdapter.refill,RxRing.setSlot] at hnone

/-- As long as no allocation has failed, the ring has buffers or is about to be refilled. -/
theorem RxState.recovers (h : RxState a c filled waiting shown fresh missed gone)
    (hgood : Flawless a.log) : Recovers a := by
  obtain rfl := h.lossless.mpr hgood
  by_cases hbare : Bare a
  swap
  · exact ⟨[],a,by simp,rfl,hbare⟩
  have hzero := h.bare_iff.mp hbare
  have hplace := h.place
  unfold RxAdapter.At at hplace
  simp only [ringSize] at hplace
  cases hd : a.driver with
  | idle w =>
    rw [hd] at hplace
    obtain ⟨-,-,hsum⟩ := hplace
    omega
  | failed =>
    rw [hd] at hplace
    obtain ⟨-,-,hsum⟩ := hplace
    omega
  | broken i posted caller =>
    rw [hd] at hplace
    obtain ⟨-,-,-,-,hmissed⟩ := hplace
    contradiction
  | refilling i left posted caller =>
    rw [hd] at hplace
    obtain ⟨-,-,-,hsum⟩ := hplace
    obtain ⟨left,rfl⟩ : ∃ n, left = n+1 := ⟨left-1,by omega⟩
    exact h.recovers_refilling hd
  | harvesting i w k budget =>
    rw [hd] at hplace
    obtain ⟨rfl,-,rfl,-,hsum⟩ := hplace
    have hstop : ¬ a.harvests i w budget := by
      intro hgo
      obtain ⟨f,rest,rfl⟩ := h.front_filled hgo.2
      rw [List.length_cons] at hzero
      omega
    have hrun : a.rxStep .harvested = some (a.harvested i w w) := by
      simp [RxAdapter.rxStep,h.loaded.allocated,hd,hstop]
    obtain ⟨n,rfl⟩ : ∃ n, w = n+1 := ⟨w-1,by omega⟩
    obtain ⟨labels,b,hall,hlast,hb⟩ := (h.harvested hd).recovers_refilling rfl
    refine ⟨.harvested::labels,b,?_,?_,hb⟩
    · rintro label hl
      rcases List.mem_cons.mp hl with rfl | hl
      · trivial
      · exact hall label hl
    · change (a.rxStep .harvested).bind _ = some b
      rw [hrun]
      exact hlast

/-- Between calls a ring without buffers stays without. -/
theorem RxState.not_recovers (h : RxState a c filled waiting shown fresh missed gone) {w : ℕ}
    (hd : a.driver = .idle w) (hzero : a.posted = 0) : ¬ Recovers a := by
  have hsum := h.posted_boundary hd
  have hplace := h.place
  unfold RxAdapter.At at hplace
  rw [hd] at hplace
  obtain ⟨-,-,hn⟩ := hplace
  obtain rfl : missed = ringSize-1 := by omega
  have hnil : filled = [] ∧ waiting = [] := by
    constructor <;> apply List.eq_nil_of_length_eq_zero <;> omega
  obtain ⟨rfl,rfl⟩ := hnil
  exact Lost.not_recovers (.inl ⟨c,shown,fresh,gone,h⟩)

/-- The receive ring after a refill without failures is full exactly when no allocation and no
mapping has failed before; between calls it can be given a buffer again exactly when it has one;
and as long as nothing has failed it can at any time. -/
theorem refilled_full_iff (h : rxPath.Reachable a) (halloc : a.rxRing.allocated = true) :
    (∀ i posted w b, a.driver = .refilling i 0 posted (.clean w) → rxPath.step a .announce = some b →
      0 < posted ∧ posted = w % 65536 ∧ (b.posted = 255 ↔ Flawless a.log)) ∧
    (∀ w, a.driver = .idle w → (Recovers a ↔ a.posted ≠ 0)) ∧
    (Flawless a.log → Recovers a) := by
  rcases rxPath_inv h with ⟨c,filled,waiting,shown,fresh,missed,gone,hs⟩ | hended
  swap
  · rw [hended.released] at halloc
    contradiction
  refine ⟨?_,?_,hs.recovers⟩
  · intro i posted w b hd hb
    have hcounts := rxPath_counts h halloc
    rw [hd] at hcounts
    obtain ⟨hsum,hpos⟩ := hcounts
    have hgo : a.rxStep .announce = some (a.announce i posted (.clean w)) := by
      simp [RxAdapter.rxStep,halloc,hd]
    obtain rfl := Option.some.inj (hgo.symm.trans hb)
    exact ⟨hpos,hsum,hs.refilled_iff hd⟩
  · intro w hd
    refine ⟨fun hrec hzero => hs.not_recovers hd hzero hrec,fun hpos => ?_⟩
    refine ⟨[],a,by simp,rfl,fun hbare => ?_⟩
    have hzero := hs.bare_iff.mp hbare
    have hsum := hs.posted_boundary hd
    have hplace := hs.place
    unfold RxAdapter.At at hplace
    rw [hd] at hplace
    obtain ⟨-,-,hn⟩ := hplace
    omega

/-- edunic_probe posts `n` buffers. -/
def postings (n : ℕ) : List RxLabel :=
  (List.range n).map fun i => .refill (some ⟨i,[]⟩) (some 4096)

/-- A frame comes in and is harvested. -/
def oneFrame : List RxLabel := [.deliver [1],.clean 64,.harvest,.harvested]

def succeeding : RxLabel := .refill (some ⟨0,[]⟩) (some 4096)
def failing : RxLabel := .refill none none

/-- With every allocation succeeding the ring is full after the refill. -/
theorem refilled_full_iff_run : ∃ a b,
    rxPath.run (postings 255 ++ [.announce] ++ oneFrame ++ [succeeding])
      (probedRx emptyRxRing 0 0) = some a ∧ rxPath.step a .announce = some b ∧ b.posted = 255 ∧
    (0 < 1 ∧ 1 = 1 % 65536 ∧ (b.posted = 255 ↔ Flawless a.log)) ∧ Recovers a := by
  have hrun : (rxPath.run (postings 255 ++ [.announce] ++ oneFrame ++ [succeeding])
      (probedRx emptyRxRing 0 0)).map (fun a => (a.rxRing.allocated,a.driver,
        (a.log.any RxEvent.failure))) = some (true,.refilling 0 0 1 (.clean 1),false) := by
    decide +kernel
  obtain ⟨a,ha,hout⟩ := Option.map_eq_some_iff.mp hrun
  simp only [Prod.mk.injEq] at hout
  obtain ⟨halloc,hd,hfail⟩ := hout
  have hgood : Flawless a.log := by
    intro e he
    have hall := List.any_eq_false.mp hfail e he
    simpa using hall
  have hinit : rxPath.Reachable (probedRx emptyRxRing 0 0) :=
    .init ⟨true,true,emptyRxRing,0,0,rfl,rfl⟩
  obtain ⟨hfull,-,hrec⟩ := refilled_full_iff (Machine.Reachable.of_run hinit ha) halloc
  have hstep : rxPath.step a .announce = some (a.announce 0 1 (.clean 1)) := by
    simp [rxPath,RxAdapter.rxStep,halloc,hd]
  have hiff := hfull 0 1 1 _ hd hstep
  exact ⟨a,_,ha,hstep,hiff.2.2.mpr hgood,hiff,hrec hgood⟩

/-- One allocation fails in the refill after the first frame. The refill after the second frame
gets all it asks for and leaves 254 buffers; and when edunic_probe has posted one buffer only, the
ring is left without any for good. -/
theorem shortfall_kept : (∃ a b, rxPath.Reachable a ∧
      a.driver = .refilling 0 0 1 (.clean 1) ∧ rxPath.step a .announce = some b ∧ b.posted = 254) ∧
    ∃ a w, rxPath.Reachable a ∧ a.rxRing.allocated = true ∧ a.driver = .idle w ∧ a.posted = 0 ∧
      ¬ Recovers a := by
  have hinit : rxPath.Reachable (probedRx emptyRxRing 0 0) :=
    .init ⟨true,true,emptyRxRing,0,0,rfl,rfl⟩
  constructor
  · have hrun : (rxPath.run (postings 255 ++ [.announce] ++ oneFrame ++ [failing,.announce] ++
        oneFrame ++ [succeeding]) (probedRx emptyRxRing 0 0)).map (fun a => (a.rxRing.allocated,
          a.driver,(a.announce 0 1 (.clean 1)).posted)) = some (true,.refilling 0 0 1 (.clean 1),254) := by
      decide +kernel
    obtain ⟨a,ha,hout⟩ := Option.map_eq_some_iff.mp hrun
    simp only [Prod.mk.injEq] at hout
    obtain ⟨halloc,hd,hposted⟩ := hout
    refine ⟨a,_,Machine.Reachable.of_run hinit ha,hd,?_,hposted⟩
    simp [rxPath,RxAdapter.rxStep,halloc,hd]
  · have hrun : (rxPath.run (postings 1 ++ [failing,.announce] ++ oneFrame ++ [failing,.announce])
        (probedRx emptyRxRing 0 0)).map (fun a => (a.rxRing.allocated,a.driver,a.posted)) =
        some (true,.idle 1,0) := by decide +kernel
    obtain ⟨a,ha,hout⟩ := Option.map_eq_some_iff.mp hrun
    simp only [Prod.mk.injEq] at hout
    obtain ⟨halloc,hd,hzero⟩ := hout
    have hreach := Machine.Reachable.of_run hinit ha
    refine ⟨a,1,hreach,halloc,hd,hzero,?_⟩
    rcases rxPath_inv hreach with ⟨c,filled,waiting,shown,fresh,missed,gone,hs⟩ | hended
    · exact hs.not_recovers hd hzero
    · rw [hended.released] at halloc
      contradiction

end NetLab.Edunic
