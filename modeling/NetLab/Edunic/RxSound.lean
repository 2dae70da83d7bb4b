import Mathlib
import NetLab.Edunic.RxRuns

/-! Ownership in the receive ring, in terms of the ring, the registers and the log only. -/
namespace NetLab.Edunic
open NetLab.Ring

namespace RxAdapter

/-- The first slot the driver has not harvested. -/
def front (a : RxAdapter) : ℕ :=
  match a.driver with
  | .harvesting i _ _ _ => i
  | _ => a.rxRing.nextToClean

/-- The places from `next_to_clean` to `next_to_use`, going around the ring. -/
def posted (a : RxAdapter) : ℕ := (a.rxRing.nextToUse+ringSize-a.rxRing.nextToClean) % ringSize

/-- The places from `next_to_clean` to RDH. -/
def delivered (a : RxAdapter) : ℕ := (a.rdh+ringSize-a.rxRing.nextToClean) % ringSize

/-- The buffers in the ring with their mappings, in ring order. -/
def lent (a : RxAdapter) : List (ℕ × UInt64) :=
  (window ringSize a.rxRing.slot a.front ringSize).filterMap
    (fun x => x.2.skb.map (fun skb => (skb.id,x.2.dma)))

end RxAdapter

/-- The receive path between two calls of the driver. -/
structure RxBoundary (a : RxAdapter) : Prop where
  tail : a.rdt = a.rxRing.nextToUse
  head : a.rdh < 256 ∧ a.delivered ≤ a.posted
  bounded : a.posted ≤ 255
  occupied : ∀ k, k < 256 →
    ((a.rxRing.buf k).skb ≠ none ↔ Within 256 a.rxRing.nextToClean a.posted k)
  done : ∀ k, k < 256 →
    ((a.rxRing.desc k).done = true ↔ Within 256 a.rxRing.nextToClean a.delivered k)

/-- The receive path at any time: what the device's next write, the driver's next harvest and
its next post find, what equal registers mean, and what the log says. -/
structure RxSound (a : RxAdapter) : Prop where
  device : a.rdh ≠ a.rdt → a.rdh < 256 ∧ (a.rxRing.desc a.rdh).done = false ∧
    ∃ skb, (a.rxRing.buf a.rdh).skb = some skb ∧ (a.rxRing.buf a.rdh).len = rxBufSize
  harvest : ∀ i workDone cleanedCount budget,
    a.driver = .harvesting i workDone cleanedCount budget → a.harvests i workDone budget → i < 256 ∧
      (a.rxRing.buf i).skb ≠ none ∧ (a.rxRing.desc i).length.toNat ≤ (a.rxRing.buf i).len
  post : ∀ i left posted caller, a.driver = .refilling i (left+1) posted caller → i < 256 ∧
    (a.rxRing.buf i).skb = none
  noBuffer : a.rdh = a.rdt ↔ ∀ k, k < 256 → Within 256 a.rxRing.nextToClean a.posted k →
    (a.rxRing.buf k).skb ≠ none → (a.rxRing.desc k).done = true
  vacancy : ∃ k, k < 256 ∧ (a.rxRing.buf k).skb = none
  history : ∃ gone, a.log.filterMap RxEvent.mapped? = gone ++ a.lent ∧
    a.log.filterMap RxEvent.unmapped? = gone.map (fun loan => (loan.2,rxBufSize)) ∧
    (gone.map Prod.fst).Sublist (a.log.filterMap RxEvent.gone?)
  balance : (a.log.filterMap RxEvent.alloc?).Perm
    (a.log.filterMap RxEvent.gone? ++ a.lent.map Prod.fst)

variable {a b : RxAdapter} {c shown : ℕ} {filled : List Filled} {waiting : List Waiting}

theorem Waiting.desc_done (e : Waiting) : e.slot.1.done = false := RxDesc.done_cleared _ _ _
theorem Filled.desc_done (f : Filled) : f.slot.1.done = true := RxDesc.done_delivered _ _

namespace RxLoaded

/-- The slots in use are those of the queue. -/
theorem used_iff (h : RxLoaded a c filled waiting shown) {k : ℕ} (hk : k < ringSize) :
    (a.rxRing.buf k).skb ≠ none ↔ Within ringSize c (filled.length+waiting.length) k := by
  have hempty : Holds ringSize (fun x : RxSlot => x.2.skb = none) a.rxRing.slot c
      (held filled waiting) := h.slots.mono fun _ hx => hx.1
  have hused := hempty.used_iff held_skb hk
  rwa [held_length] at hused

theorem at_filled (h : RxLoaded a c filled waiting shown) {j : ℕ} (hj : j < filled.length) :
    a.rxRing.slot (cell ringSize c j) = filled[j].slot := by
  have hitem := h.slots.item j (by rw [held_length]; omega)
  rw [hitem]
  have hmap : j < (filled.map Filled.slot).length := by rwa [List.length_map]
  simp [held,List.getElem_append_left hmap]

theorem at_waiting (h : RxLoaded a c filled waiting shown) {j : ℕ} (hj : j < waiting.length) :
    a.rxRing.slot (cell ringSize c (filled.length+j)) = waiting[j].slot := by
  have hitem := h.slots.item (filled.length+j) (by rw [held_length]; omega)
  rw [hitem]
  simp [held]

/-- The slots that are done are those with a frame. -/
theorem done_iff (h : RxLoaded a c filled waiting shown) {k : ℕ} (hk : k < ringSize) :
    (a.rxRing.desc k).done = true ↔ Within ringSize c filled.length k := by
  have hroom := h.room
  constructor
  · intro hdone
    by_cases hw : Within ringSize c (held filled waiting).length k
    · obtain ⟨j,hj,rfl⟩ := hw
      rcases Nat.lt_or_ge j filled.length with hlt | hge
      · exact ⟨j,hlt,rfl⟩
      · obtain ⟨i,rfl⟩ := Nat.exists_eq_add_of_le hge
        rw [held_length] at hj
        have hslot := h.at_waiting (j := i) (by omega)
        have hclear : (a.rxRing.slot (cell ringSize c (filled.length+i))).1.done = false := by
          rw [hslot]
          exact Waiting.desc_done _
        exact absurd (hdone.symm.trans hclear) (by simp)
    · have hvacant := h.slots.rest k hk hw
      exact absurd (hdone.symm.trans hvacant.2) (by simp)
  · rintro ⟨j,hj,rfl⟩
    have hslot := h.at_filled hj
    have hdone : (a.rxRing.slot (cell ringSize c j)).1.done = true := by
      rw [hslot]
      exact Filled.desc_done _
    exact hdone

/-- Read from slot `c` on, the ring shows the queue and then vacant slots. -/
theorem window_held (h : RxLoaded a c filled waiting shown) : ∃ rest,
    window ringSize a.rxRing.slot c ringSize = held filled waiting ++ rest ∧ ∀ x ∈ rest, Vacant x := by
  have hroom := h.room
  obtain ⟨r,hr⟩ := Nat.exists_eq_add_of_le hroom.le
  have hwindow := h.slots.window_eq
  rw [held_length] at hwindow
  refine ⟨window ringSize a.rxRing.slot (cell ringSize c (filled.length+waiting.length)) r,?_,?_⟩
  · nth_rewrite 2 [hr]
    rw [window_add,hwindow]
  · intro x hx
    obtain ⟨i,hi,rfl⟩ := List.mem_map.mp hx
    have hi := List.mem_range.mp hi
    rw [cell_cell]
    refine h.slots.rest _ (cell_lt ringSize_pos) ?_
    rw [held_length,within_cell hroom.le (by omega)]
    omega

/-- Read from the front, the ring shows the loans that are out. -/
theorem lent_eq (h : RxLoaded a c filled waiting shown) (hfront : a.front = c) :
    a.lent = loans filled waiting := by
  obtain ⟨rest,hwindow,hvacant⟩ := h.window_held
  have hrest : rest.filterMap (fun x => x.2.skb.map (fun skb => (skb.id,x.2.dma))) = [] := by
    refine List.filterMap_eq_nil_iff.mpr fun x hx => ?_
    rw [(hvacant x hx).1]
    rfl
  unfold RxAdapter.lent
  rw [hfront,hwindow,List.filterMap_append,hrest,List.append_nil]
  simp only [held,loans,List.filterMap_append,List.filterMap_map]
  congr 1 <;> rw [← List.filterMap_eq_map] <;> rfl

end RxLoaded

namespace RxState

variable {fresh missed : ℕ} {gone : List (ℕ × UInt64)}

/-- The queue starts as many slots after `next_to_clean` as have been harvested in this call. -/
theorem start (h : RxState a c filled waiting shown fresh missed gone) : a.front = c ∧
    ∃ k, c = cell ringSize a.rxRing.nextToClean k ∧ k+filled.length+waiting.length < ringSize := by
  have hclean := h.loaded.clean_lt
  have hroom := h.loaded.room
  have hplace := h.place
  unfold RxAdapter.At at hplace
  unfold RxAdapter.front
  cases hd : a.driver with
  | harvesting i w k budget =>
    rw [hd] at hplace
    obtain ⟨hi,hc,-,-,hsum⟩ := hplace
    refine ⟨hi,k,hc,?_⟩
    simp only [ringSize] at hsum ⊢
    omega
  | idle w =>
    rw [hd] at hplace
    exact ⟨hplace.1.symm,0,by rw [cell_zero hclean]; exact hplace.1,by omega⟩
  | failed =>
    rw [hd] at hplace
    exact ⟨hplace.1.symm,0,by rw [cell_zero hclean]; exact hplace.1,by omega⟩
  | refilling i left posted caller =>
    rw [hd] at hplace
    exact ⟨hplace.1.symm,0,by rw [cell_zero hclean]; exact hplace.1,by omega⟩
  | broken i posted caller =>
    rw [hd] at hplace
    exact ⟨hplace.1.symm,0,by rw [cell_zero hclean]; exact hplace.1,by omega⟩

theorem posted_eq (h : RxState a c filled waiting shown fresh missed gone) {k : ℕ}
    (hc : c = cell ringSize a.rxRing.nextToClean k)
    (hk : k+filled.length+waiting.length < ringSize) : a.posted = k+(filled.length+shown) := by
  have hshown := h.loaded.shown_le
  unfold RxAdapter.posted
  rw [h.loaded.use,h.loaded.tail,hc,cell_cell]
  exact cell_distance h.loaded.clean_lt (by omega)

theorem boundary (h : RxState a c filled waiting shown fresh missed gone) {w : ℕ}
    (hd : a.driver = .idle w) : RxBoundary a := by
  have hclean := h.loaded.clean_lt
  have hroom := h.loaded.room
  have hsplit := h.split
  have hplace := h.place
  unfold RxAdapter.At at hplace
  rw [hd] at hplace
  obtain ⟨rfl,rfl,hsum⟩ := hplace
  have hposted := h.posted_eq (k := 0) (cell_zero hclean).symm (by omega)
  have hdelivered : a.delivered = filled.length := by
    unfold RxAdapter.delivered
    rw [h.loaded.head]
    exact cell_distance hclean (by omega)
  rw [Nat.zero_add] at hposted
  rw [Nat.add_zero] at hsplit
  refine ⟨h.loaded.use.symm,⟨?_,by omega⟩,?_,?_,?_⟩
  · rw [h.loaded.head]
    exact cell_lt ringSize_pos
  · simp only [ringSize] at hroom
    omega
  · intro k hk
    rw [hposted,← hsplit]
    exact h.loaded.used_iff hk
  · intro k hk
    rw [hdelivered]
    exact h.loaded.done_iff hk

/-- The device writes into the first buffer that waits. -/
theorem device (h : RxState a c filled waiting shown fresh missed gone) (hne : a.rdh ≠ a.rdt) :
    a.rdh < ringSize ∧ (a.rxRing.desc a.rdh).done = false ∧
      ∃ skb, (a.rxRing.buf a.rdh).skb = some skb ∧ (a.rxRing.buf a.rdh).len = rxBufSize := by
  cases waiting with
  | nil =>
    have hshown : shown = 0 := Nat.le_zero.mp h.loaded.shown_le
    exact absurd (h.loaded.no_buffer_iff.mpr hshown) hne
  | cons e waiting =>
    have hslot := h.loaded.at_head
    have hdesc : a.rxRing.desc a.rdh = ⟨e.dma,0,0,0⟩ := congrArg Prod.fst hslot
    have hbuf : a.rxRing.buf a.rdh = ⟨some e.skb,e.dma,rxBufSize⟩ := congrArg Prod.snd hslot
    refine ⟨?_,by rw [hdesc]; exact RxDesc.done_cleared _ _ _,e.skb,?_⟩
    · rw [h.loaded.head]
      exact cell_lt ringSize_pos
    · rw [hbuf]
      exact ⟨rfl,rfl⟩

/-- The driver harvests a buffer with a frame that fits it. -/
theorem harvest_filled (h : RxState a c filled waiting shown fresh missed gone) {i w k : ℕ}
    {budget : ℤ} (hd : a.driver = .harvesting i w k budget) (hgo : a.harvests i w budget) :
    i < ringSize ∧ (a.rxRing.buf i).skb ≠ none ∧
      (a.rxRing.desc i).length.toNat ≤ (a.rxRing.buf i).len := by
  have hplace := h.place
  unfold RxAdapter.At at hplace
  rw [hd] at hplace
  obtain ⟨rfl,-⟩ := hplace
  obtain ⟨f,rest,rfl⟩ := h.front_filled hgo.2
  have hslot := h.loaded.at_front
  have hdesc : a.rxRing.desc i = ⟨f.dma,UInt16.ofNat f.frame.length,rxdDelivered,0⟩ :=
    congrArg Prod.fst hslot
  have hbuf : a.rxRing.buf i = ⟨some (f.skb.write f.frame),f.dma,rxBufSize⟩ :=
    congrArg Prod.snd hslot
  rw [hdesc,hbuf]
  exact ⟨h.loaded.start_lt,by simp,(Nat.mod_le _ _).trans f.fits⟩

/-- The driver posts a buffer into a slot that has none. -/
theorem post_vacant (h : RxState a c filled waiting shown fresh missed gone)
    {i left posted : ℕ} {caller : RxCaller} (hd : a.driver = .refilling i left posted caller) :
    i < ringSize ∧ (a.rxRing.buf i).skb = none := by
  have hplace := h.place
  unfold RxAdapter.At at hplace
  rw [hd] at hplace
  obtain ⟨-,rfl,-⟩ := hplace
  have hblank := h.loaded.slots.next_blank (by rw [held_length]; exact h.loaded.room)
  rw [held_length] at hblank
  exact ⟨cell_lt ringSize_pos,hblank.1⟩

/-- RDH meets RDT when every posted buffer the driver has not taken back has a frame. -/
theorem noBuffer_iff (h : RxState a c filled waiting shown fresh missed gone) : a.rdh = a.rdt ↔
    ∀ k, k < ringSize → Within ringSize a.rxRing.nextToClean a.posted k →
      (a.rxRing.buf k).skb ≠ none → (a.rxRing.desc k).done = true := by
  obtain ⟨-,n,hc,hn⟩ := h.start
  have hshown := h.loaded.shown_le
  have hroom := h.loaded.room
  have hposted := h.posted_eq hc hn
  rw [h.loaded.no_buffer_iff]
  constructor
  · rintro rfl k hk hw hskb
    obtain ⟨j,hj,rfl⟩ := (h.loaded.used_iff hk).mp hskb
    rw [h.loaded.done_iff hk]
    rw [hc,cell_cell,hposted,within_cell (by omega) (by omega)] at hw
    exact ⟨j,by omega,rfl⟩
  · intro hall
    by_contra hpos
    have hat : filled.length < filled.length+waiting.length := by omega
    have hlt : cell ringSize c filled.length < ringSize := cell_lt ringSize_pos
    have hdone := hall _ hlt ⟨n+filled.length,by omega,by rw [hc,cell_cell]⟩
      ((h.loaded.used_iff hlt).mpr ⟨_,hat,rfl⟩)
    rw [h.loaded.done_iff hlt,within_cell (by omega) (by omega)] at hdone
    exact absurd hdone (lt_irrefl _)

theorem sound (h : RxState a c filled waiting shown fresh missed gone) : RxSound a := by
  have hlent := h.loaded.lent_eq h.start.1
  have hledger := h.carried.ledger
  refine ⟨h.device,fun _ _ _ _ hd hgo => h.harvest_filled hd hgo,
    fun _ _ _ _ hd => h.post_vacant hd,h.noBuffer_iff,?_,?_,?_⟩
  · have hblank := h.loaded.slots.next_blank (by rw [held_length]; exact h.loaded.room)
    exact ⟨_,cell_lt ringSize_pos,hblank.1⟩
  · rw [hlent]
    exact ⟨gone,hledger.lent,hledger.returned,hledger.order⟩
  · rw [hlent]
    exact hledger.taken

end RxState

/-- Along every interleaving of received frames, harvesting with any budget and refilling with
failures at any point, device and driver agree on who owns which receive buffer; after the
removal every mapping has been given back and every buffer freed or handed up, once each. -/
theorem receive_ring_sound (h : rxPath.Reachable a) :
    (a.rxRing.allocated = true →
      RxSound a ∧ ∀ returned, a.driver = .idle returned → RxBoundary a) ∧
      (a.rxRing.allocated = false → RxEnded a) := by
  rcases rxPath_inv h with ⟨c,filled,waiting,shown,fresh,missed,gone,hs⟩ | hended
  · refine ⟨fun _ => ⟨hs.sound,fun _ hd => hs.boundary hd⟩,fun hfreed => ?_⟩
    rw [hs.loaded.allocated] at hfreed
    contradiction
  · refine ⟨fun halloc => ?_,fun _ => hended⟩
    rw [hended.released] at halloc
    contradiction

/-- edunic_probe posts three buffers before an allocation fails; two frames come in, a third one
between the two rounds of the harvest; a mapping fails in the refill; a fourth frame finds a
buffer and a fifth none. -/
def threeBuffers : List RxLabel :=
  [.refill (some ⟨1,[]⟩) (some 4096),.refill (some ⟨2,[0]⟩) (some 8192),
    .refill (some ⟨3,[]⟩) (some 12288),.refill none none,.announce,.deliver [1,2],.deliver [3],
    .clean 2,.harvest,.deliver [4],.harvest,.harvested,.refill (some ⟨5,[]⟩) (some 4096),
    .refill (some ⟨6,[]⟩) none,.announce,.deliver [5,5],.deliver [6]]

theorem receive_ring_sound_run : ∃ a b,
    rxPath.run threeBuffers (probedRx emptyRxRing 7 9) = some a ∧
    (a.posted,a.delivered) = (2,2) ∧
    (handedUp a.log,a.lent) = ([[1,2],[3]],[(3,12288),(5,4096)]) ∧
    RxSound a ∧ RxBoundary a ∧ rxPath.run [.free] a = some b ∧
    b.log.filterMap RxEvent.gone? = [1,2,6,3,5] ∧ RxEnded b := by
  have hmid : (rxPath.run threeBuffers (probedRx emptyRxRing 7 9)).map
      (fun a => (a.rxRing.allocated,a.driver,a.posted,a.delivered)) = some (true,.idle 2,2,2) := by
    decide +kernel
  have hview : (rxPath.run threeBuffers (probedRx emptyRxRing 7 9)).map
      (fun a => (handedUp a.log,a.lent)) = some ([[1,2],[3]],[(3,12288),(5,4096)]) := by
    decide +kernel
  have hend : (rxPath.run (threeBuffers++[.free]) (probedRx emptyRxRing 7 9)).map
      (fun b => (b.rxRing.allocated,b.log.filterMap RxEvent.gone?)) = some (false,[1,2,6,3,5]) := by
    decide +kernel
  obtain ⟨a,ha,hout⟩ := Option.map_eq_some_iff.mp hmid
  obtain ⟨b,hb,hlast⟩ := Option.map_eq_some_iff.mp hend
  rw [Machine.run_append,ha,Option.bind_some] at hb
  rw [ha,Option.map_some] at hview
  obtain ⟨halloc,hout⟩ := Prod.mk.inj hout
  obtain ⟨hidle,hout⟩ := Prod.mk.inj hout
  obtain ⟨hfreed,hlast⟩ := Prod.mk.inj hlast
  have hinit : rxPath.Reachable (probedRx emptyRxRing 7 9) :=
    .init ⟨true,true,emptyRxRing,7,9,rfl,rfl⟩
  have hreach := Machine.Reachable.of_run hinit ha
  obtain ⟨hsound,hboundary⟩ := (receive_ring_sound hreach).1 halloc
  exact ⟨a,b,ha,hout,Option.some.inj hview,hsound,hboundary 2 hidle,hb,hlast,
    (receive_ring_sound (Machine.Reachable.of_run hreach hb)).2 hfreed⟩

end NetLab.Edunic
