import Mathlib
import NetLab.Foundation.Sweep
import NetLab.SimpleNetdev.TxRing

/-! Conservation of packets in the transmit ring of simple_netdev: the ring is a queue of packets
in flight that the device completes in any order and the driver reclaims from the front. -/
namespace NetLab.SimpleNetdev
open NetLab.Ring

theorem txRingSize_pos : 0 < txRingSize := by decide

theorem next_cell (lo i : ℕ) : next (cell txRingSize lo i) = cell txRingSize lo (i+1) := by
  simp only [next,cell,Nat.mod_add_mod,Nat.add_assoc]

theorem next_eq (i : ℕ) : next i = cell txRingSize i 1 := rfl

/-! ### What the log says -/

def TxEvent.mapped? : TxEvent → Option (SkBuff × UInt64)
  | .map skb dma => some (skb,dma)
  | _ => none

def TxEvent.unmapped? : TxEvent → Option (UInt64 × ℕ)
  | .unmap dma len => some (dma,len)
  | _ => none

def TxEvent.freed? : TxEvent → Option SkBuff
  | .kfree skb => some skb
  | _ => none

def TxEvent.accepted? : TxEvent → Option SkBuff
  | .accepted skb => some skb
  | _ => none

/-- The driver takes a packet with NETDEV_TX_OK, lends its bytes to the device by a mapping and
lets go of it with dev_kfree_skb; a mapping goes back with its address and its length. -/
def custody : Custody TxEvent SkBuff (SkBuff × UInt64) (UInt64 × ℕ) where
  taken := TxEvent.accepted?
  freed := TxEvent.freed?
  lent := TxEvent.mapped?
  returned := TxEvent.unmapped?
  owner := Prod.fst
  mapping := fun packet => (packet.2,packet.1.len)

/-! ### The ring -/

/-- A packet in flight: its buffer, its mapping, and whether the device has completed it. -/
structure Flight where
  skb : SkBuff
  dma : UInt64
  done : Bool

namespace Flight

def packet (f : Flight) : SkBuff × UInt64 := (f.skb,f.dma)

/-- The descriptor of a packet in flight: the device owns it until it has completed it. -/
def desc (f : Flight) : TxDesc := ⟨some f.skb,f.dma,f.skb.len,!f.done,f.done⟩

end Flight

/-- A descriptor that is not in use. -/
def TxDesc.Idle (desc : TxDesc) : Prop :=
  desc.skb = none ∧ desc.ownedByHw = false ∧ desc.done = false

/-- The ring holds `flights` from `tx_clean` on. -/
structure Loaded (p : Priv) (flights : List Flight) : Prop where
  allocated : p.allocated = true
  clean_lt : p.txClean < txRingSize
  room : flights.length < txRingSize
  head : p.txHead = cell txRingSize p.txClean flights.length
  slots : Holds txRingSize TxDesc.Idle p.txRing p.txClean (flights.map Flight.desc)

variable {p : Priv} {flights : List Flight} {gone : List (SkBuff × UInt64)}

namespace Loaded

theorem head_lt (h : Loaded p flights) : p.txHead < txRingSize := by
  rw [h.head]
  exact cell_lt txRingSize_pos

/-- my_tx_ring_full answers yes when only the slot that is kept empty is left. -/
theorem full_iff (h : Loaded p flights) :
    p.txRingFull = true ↔ flights.length+1 = txRingSize := by
  have hclean := h.clean_lt
  have hroom := h.room
  rw [Priv.txRingFull,beq_iff_eq,h.head]
  simp only [next,cell,txRingSize] at *
  omega

/-- The queue flag, the doorbell and the log are not part of the ring. -/
theorem frame (h : Loaded p flights) (txTail : ℕ) (stopped : Bool) (log : List TxEvent) :
    Loaded { p with txTail, queueStopped := stopped, log } flights :=
  ⟨h.allocated,h.clean_lt,h.room,h.head,h.slots⟩

theorem not_idle (flights : List Flight) : ∀ x ∈ flights.map Flight.desc, ¬ x.Idle := by
  intro x hx
  obtain ⟨f,-,rfl⟩ := List.mem_map.mp hx
  rintro ⟨h,-,-⟩
  exact absurd h (by simp [Flight.desc])

/-- A descriptor that is in use belongs to a packet in flight. -/
theorem flight_at (h : Loaded p flights) {k : ℕ} (hk : k < txRingSize)
    (huse : ¬ (p.txRing k).Idle) :
    ∃ (i : ℕ) (hi : i < flights.length), k = cell txRingSize p.txClean i ∧
      p.txRing k = flights[i].desc := by
  obtain ⟨i,hi,rfl⟩ := (h.slots.used_iff (not_idle flights) hk).mp huse
  have hitem := h.slots.item i hi
  rw [List.length_map] at hi
  rw [List.getElem_map] at hitem
  exact ⟨i,hi,rfl,hitem⟩

/-- The slots without a packet are those outside the queue. -/
theorem empties (h : Loaded p flights) :
    Holds txRingSize (fun desc => desc.skb = none) p.txRing p.txClean (flights.map Flight.desc) :=
  h.slots.mono fun _ hidle => hidle.1

theorem head_idle (h : Loaded p flights) : (p.txRing p.txHead).Idle := by
  have hroom : (flights.map Flight.desc).length < txRingSize := by simpa using h.room
  have hblank := h.slots.next_blank hroom
  rwa [List.length_map,← h.head] at hblank

theorem mapFailed (h : Loaded p flights) (skb : SkBuff) : Loaded (p.mapFailed skb) flights := by
  refine ⟨h.allocated,h.clean_lt,h.room,h.head,?_⟩
  have hidle := h.head_idle
  change Holds _ _ (Function.update p.txRing p.txHead _) _ _
  rw [h.head] at hidle ⊢
  exact h.slots.write_blank (by simp) h.room hidle

/-- A packet is posted behind those in flight. -/
theorem post (h : Loaded p flights) (hroom : flights.length+1 < txRingSize) (skb : SkBuff)
    (dma : UInt64) :
    Loaded (p.fill skb dma).advanceHead.ringDoorbell (flights++[⟨skb,dma,false⟩]) := by
  refine ⟨h.allocated,h.clean_lt,by simpa using hroom,?_,?_⟩
  · change next p.txHead = cell txRingSize p.txClean _
    rw [h.head,next_cell,List.length_append]
    rfl
  · have hpush := h.slots.push (by simpa using h.room) (Flight.desc ⟨skb,dma,false⟩)
    change Holds _ _ (Function.update p.txRing p.txHead _) _ _
    rw [List.length_map,← h.head] at hpush
    rw [List.map_append]
    exact hpush

/-- The device completes a packet in flight; its place in the queue does not matter. -/
theorem complete (h : Loaded p flights) {k : ℕ} (hk : k < txRingSize)
    (howned : (p.txRing k).ownedByHw = true) : ∃ flights', Loaded (p.complete k) flights' ∧
      flights'.map Flight.packet = flights.map Flight.packet := by
  have huse : ¬ (p.txRing k).Idle := fun hidle => absurd howned (by simp [hidle.2.1])
  obtain ⟨i,hi,rfl,hdesc⟩ := h.flight_at hk huse
  refine ⟨flights.set i ⟨flights[i].skb,flights[i].dma,true⟩,?_,?_⟩
  · refine ⟨h.allocated,h.clean_lt,by simpa using h.room,
      by rw [List.length_set]; exact h.head,?_⟩
    have hset := h.slots.set (by simpa using h.room.le) (by simpa using hi)
      (Flight.desc ⟨flights[i].skb,flights[i].dma,true⟩)
    rw [List.map_set]
    change Holds _ _ (Function.update p.txRing _ { p.txRing _ with ownedByHw := false, done := true })
      _ _
    rw [hdesc]
    exact hset
  · rw [List.map_set]
    apply List.ext_getElem (by simp)
    intro j hj hj'
    rw [List.getElem_set]
    split
    · next he =>
      subst he
      simp [Flight.packet]
    · rfl

/-- The front of the queue leaves the ring. -/
theorem reclaim {f : Flight} (h : Loaded p (f::flights)) :
    Loaded p.reclaim.advanceClean flights := by
  have hroom : flights.length+1 < txRingSize := by simpa using h.room
  refine ⟨h.allocated,?_,by omega,?_,?_⟩
  · change next p.txClean < txRingSize
    rw [next_eq]
    exact cell_lt txRingSize_pos
  · change p.txHead = cell txRingSize (next p.txClean) flights.length
    rw [h.head,next_eq,cell_cell,List.length_cons,Nat.add_comm]
  · have hslots := h.slots
    rw [List.map_cons] at hslots
    exact hslots.pop h.clean_lt (by simpa using Nat.lt_of_succ_lt hroom) ⟨rfl,rfl,rfl⟩

/-- my_tx_clean stops at an empty ring. -/
theorem clean_empty (h : Loaded p []) : p.txClean = p.txHead := by
  rw [h.head]
  exact (cell_zero h.clean_lt).symm

theorem clean_front {f : Flight} (h : Loaded p (f::flights)) :
    p.txRing p.txClean = f.desc ∧ p.txClean ≠ p.txHead := by
  have hslots := h.slots
  rw [List.map_cons] at hslots
  have hroom : flights.length+1 < txRingSize := by simpa using h.room
  refine ⟨hslots.front h.clean_lt,?_⟩
  rw [h.head]
  nth_rewrite 1 [← cell_zero h.clean_lt]
  rw [ne_eq,cell_inj txRingSize_pos (by simpa using hroom),List.length_cons]
  omega

end Loaded

/-- The loop of my_tx_clean releases packets from the front of the queue, in order; it needs no
more rounds than packets are in flight. -/
theorem cleanLoop_spec {fuel : ℕ} (h : Loaded p flights)
    (hl : custody.Ledger p.log gone (flights.map Flight.packet)) (hfuel : flights.length < fuel) :
    ∃ q left released, p.cleanLoop fuel = some q ∧ flights = released ++ left ∧
      (∀ f ∈ released, f.done = true) ∧ Loaded q left ∧
      custody.Ledger q.log (gone++released.map Flight.packet) (left.map Flight.packet) ∧
      q.txClean = cell txRingSize p.txClean released.length := by
  induction flights generalizing p gone fuel with
  | nil =>
    obtain ⟨fuel,rfl⟩ : ∃ n, fuel = n+1 := ⟨fuel-1,by omega⟩
    refine ⟨p,[],[],?_,rfl,by simp,h,by simpa using hl,(cell_zero h.clean_lt).symm⟩
    rw [Priv.cleanLoop,if_neg]
    exact fun hgo => hgo.1 h.clean_empty
  | cons f flights ih =>
    obtain ⟨fuel,rfl⟩ : ∃ n, fuel = n+1 := ⟨fuel-1,by omega⟩
    obtain ⟨hdesc,hne⟩ := h.clean_front
    by_cases hdone : f.done = true
    · have hready : p.reclaimable = true := by simp [Priv.reclaimable,hdesc,Flight.desc,hdone]
      have hlog : custody.Ledger p.reclaim.advanceClean.log (gone++[f.packet])
          (flights.map Flight.packet) := by
        change custody.Ledger (p.log ++ _) _ _
        rw [hdesc]
        exact Custody.Ledger.release hl rfl rfl rfl rfl
      obtain ⟨q,left,released,hrun,hsplit,hall,hq,hql,hclean⟩ :=
        ih h.reclaim hlog (Nat.lt_of_succ_lt_succ hfuel)
      refine ⟨q,left,f::released,?_,by rw [hsplit]; rfl,?_,hq,?_,?_⟩
      · rw [Priv.cleanLoop,if_pos ⟨hne,hready⟩,hrun]
      · intro g hg
        rcases List.mem_cons.mp hg with rfl | hg
        · exact hdone
        · exact hall g hg
      · rw [List.map_cons]
        simpa using hql
      · rw [hclean]
        change cell txRingSize (next p.txClean) _ = _
        rw [next_eq,cell_cell,List.length_cons,Nat.add_comm]
    · have hnot : ¬ (p.txClean ≠ p.txHead ∧ p.reclaimable = true) := by
        rintro ⟨-,hready⟩
        simp [Priv.reclaimable,hdesc,Flight.desc] at hready
        exact hdone hready
      refine ⟨p,f::flights,[],?_,rfl,by simp,h,by simpa using hl,(cell_zero h.clean_lt).symm⟩
      rw [Priv.cleanLoop,if_neg hnot]

/-- my_tx_clean returns, having released packets that were done, in order. -/
theorem cleanTx_spec (h : Loaded p flights)
    (hl : custody.Ledger p.log gone (flights.map Flight.packet)) :
    ∃ q left released, p.cleanTx = some q ∧ flights = released ++ left ∧
      (∀ f ∈ released, f.done = true) ∧ Loaded q left ∧
      custody.Ledger q.log (gone++released.map Flight.packet) (left.map Flight.packet) ∧
      q.txClean = cell txRingSize p.txClean released.length := by
  obtain ⟨q,left,released,hrun,hsplit,hall,hq,hql,hclean⟩ := cleanLoop_spec h hl h.room
  refine ⟨q.wake,left,released,by rw [Priv.cleanTx,hrun]; rfl,hsplit,hall,?_,?_,?_⟩ <;>
    rw [Priv.wake] <;> split
  · exact hq.frame _ _ _
  · exact hq
  · exact hql
  · exact hql
  · exact hclean
  · exact hclean

theorem startXmit_spec (h : Loaded p flights)
    (hl : custody.Ledger p.log gone (flights.map Flight.packet)) (skb : SkBuff)
    (mapping : Option UInt64) : ∃ flights', Loaded (p.startXmit skb mapping).1 flights' ∧
      custody.Ledger (p.startXmit skb mapping).1.log gone (flights'.map Flight.packet) := by
  have hroom := h.room
  unfold Priv.startXmit
  by_cases hfull : p.txRingFull = true
  · rw [if_pos hfull]
    exact ⟨flights,h.frame _ _ _,hl.silent rfl rfl rfl rfl⟩
  · rw [if_neg hfull]
    cases mapping with
    | none =>
      refine ⟨flights,(h.mapFailed skb).frame _ _ _,?_⟩
      change custody.Ledger (p.log ++ [.kfree skb] ++ [.accepted skb]) _ _
      rw [List.append_assoc]
      exact hl.pass rfl rfl rfl rfl
    | some dma =>
      have hnext : flights.length+1 < txRingSize :=
        lt_of_le_of_ne hroom fun he => hfull (h.full_iff.mpr he)
      have hpost : Loaded ((p.fill skb dma).advanceHead.ringDoorbell.note [.accepted skb])
          (flights++[⟨skb,dma,false⟩]) := (h.post hnext skb dma).frame _ _ _
      refine ⟨_,hpost,?_⟩
      change custody.Ledger (p.log ++ [.map skb dma] ++ [.accepted skb]) _ _
      rw [List.append_assoc,List.map_append]
      exact Custody.Ledger.lend hl rfl rfl rfl rfl

/-! ### Removal -/

/-- What my_free_pending_tx does to the packet of a descriptor. -/
def freed (desc : TxDesc) : List TxEvent :=
  match desc.skb with
  | none => []
  | some skb => [.unmap desc.dmaAddr desc.len,.kfree skb]

/-- What it leaves of the descriptor. -/
def emptied (desc : TxDesc) : TxDesc := { desc with skb := none }

theorem txRing_freeSlot (p : Priv) (i : ℕ) :
    (p.freeSlot i).txRing = Function.update p.txRing i (emptied (p.txRing i)) := by
  cases hs : (p.txRing i).skb with
  | none =>
    have hgo : p.freeSlot i = p := by simp only [Priv.freeSlot,hs]
    have hsame : emptied (p.txRing i) = p.txRing i := by
      unfold emptied
      rw [← hs]
    rw [hgo,hsame,Function.update_eq_self]
  | some skb => simp [Priv.freeSlot,hs,Priv.note,Priv.setDesc,emptied]

theorem log_freeSlot (p : Priv) (i : ℕ) : (p.freeSlot i).log = p.log ++ freed (p.txRing i) := by
  cases hs : (p.txRing i).skb <;> simp [Priv.freeSlot,freed,Priv.note,Priv.setDesc,hs]

/-- Freeing takes in and lends nothing. -/
theorem filterMap_freed {β : Type} {f : TxEvent → Option β}
    (hunmap : ∀ dma len, f (.unmap dma len) = none) (hkfree : ∀ skb, f (.kfree skb) = none)
    (desc : TxDesc) : (freed desc).filterMap f = [] := by
  unfold freed
  cases desc.skb with
  | none => rfl
  | some skb => simp [hunmap,hkfree]

/-- What the freed descriptors of packets in flight, in any order, give back and let go of. -/
theorem freed_flights (flights : List Flight) :
    ((flights.map Flight.desc).flatMap freed).filterMap custody.freed =
      (flights.map Flight.packet).map custody.owner ∧
    ((flights.map Flight.desc).flatMap freed).filterMap custody.returned =
      (flights.map Flight.packet).map custody.mapping := by
  induction flights with
  | nil => exact ⟨rfl,rfl⟩
  | cons f flights ih =>
    simp only [List.map_cons,List.flatMap_cons,List.filterMap_append,ih.1,ih.2]
    exact ⟨rfl,rfl⟩

/-- After the removal: the ring is gone, no slot holds a packet, every mapping has been given
back with its own address and length and every packet taken has been freed, once each. -/
structure TxEnded (p : Priv) : Prop where
  released : p.allocated = false
  empty : ∀ k, k < txRingSize → (p.txRing k).skb = none
  settled : custody.Settled p.log

theorem remove_spec (h : Loaded p flights)
    (hl : custody.Ledger p.log gone (flights.map Flight.packet)) :
    TxEnded p.freePendingTx.freeDescRings := by
  have hblank : ∀ desc : TxDesc, desc.skb = none → freed desc = [] := by
    intro desc hd
    rw [freed,hd]
  have hused : ∀ desc ∈ flights.map Flight.desc, ¬ desc.skb = none := by
    intro desc hd
    obtain ⟨f,-,rfl⟩ := List.mem_map.mp hd
    simp [Flight.desc]
  obtain ⟨howner,hmapping⟩ := freed_flights flights
  have hsettled := hl.sweep h.empties h.clean_lt (by rw [List.length_map]; exact h.room.le) hused
    hblank (filterMap_freed (fun _ _ => rfl) fun _ => rfl)
    (filterMap_freed (fun _ _ => rfl) fun _ => rfl) howner hmapping
  obtain ⟨hlog,hcells⟩ := sweep_spec Priv.txRing Priv.log freed emptied txRing_freeSlot log_freeSlot
    p txRingSize
  rw [Priv.freePendingTx,if_pos h.allocated]
  generalize (List.range txRingSize).foldl Priv.freeSlot p = q at hlog hcells ⊢
  refine ⟨rfl,fun k hk => ?_,?_⟩
  · have hcell := hcells k
    rw [if_pos hk] at hcell
    exact congrArg TxDesc.skb hcell
  · change custody.Settled q.log
    rw [hlog]
    exact hsettled

/-! ### Runs -/

/-- The ring in use, or given back. -/
def TxInv (p : Priv) : Prop :=
  (∃ flights gone, Loaded p flights ∧ custody.Ledger p.log gone (flights.map Flight.packet)) ∨
    TxEnded p

/-- Every step of the transmit path keeps the queue. -/
theorem txStep_inv {label : TxLabel} {q : Priv} (hi : TxInv p) (h : p.txStep label = some q) :
    TxInv q := by
  unfold Priv.txStep at h
  by_cases halloc : p.allocated = true
  swap
  · rw [if_neg halloc] at h
    contradiction
  · rw [if_pos halloc] at h
    rcases hi with ⟨flights,gone,hload,hl⟩ | hended
    · cases label with
      | xmit skb mapping =>
        obtain ⟨flights',hload,hl⟩ := startXmit_spec hload hl skb mapping
        rw [← Option.some.inj h]
        exact .inl ⟨flights',gone,hload,hl⟩
      | complete k =>
        obtain ⟨⟨hk,howned⟩,rfl⟩ := guarded_eq_some.mp h
        obtain ⟨flights',hload',hpackets⟩ := hload.complete hk howned
        refine .inl ⟨flights',gone,hload',?_⟩
        rw [hpackets]
        exact hl
      | clean =>
        obtain ⟨r,left,released,hr,-,-,hr',hrl,-⟩ := cleanTx_spec hload hl
        obtain rfl := Option.some.inj (hr.symm.trans h)
        exact .inl ⟨left,_,hr',hrl⟩
      | remove =>
        rw [← Option.some.inj h]
        exact .inr (remove_spec hload hl)
    · rw [hended.released] at halloc
      contradiction

theorem txPath_inv (h : txPath.Reachable p) : TxInv p := by
  have hstep : ∀ s label t, txPath.Reachable s → TxInv s → True → txPath.step s label = some t →
      TxInv t := fun _ _ _ _ hi _ hstep => txStep_inv hi hstep
  refine h.invariant ?_ hstep
  rintro s ⟨memory,txTail,hs⟩
  rw [Priv.allocTxDescRing] at hs
  split at hs
  · rw [← Option.some.inj hs]
    refine .inl ⟨[],[],⟨rfl,txRingSize_pos,txRingSize_pos,rfl,?_⟩,Custody.Ledger.empty⟩
    exact Holds.empty fun _ _ => ⟨rfl,rfl,rfl⟩
  · contradiction

/-! ### What the two indices say -/

/-- The number of packets in flight, going around the ring from `tx_clean`. -/
def Priv.inFlight (p : Priv) : ℕ := (p.txHead+txRingSize-p.txClean) % txRingSize

/-- The packets in flight, in ring order. -/
def Priv.held (p : Priv) : List (SkBuff × UInt64) :=
  (window txRingSize p.txRing p.txClean p.inFlight).filterMap
    (fun desc => desc.skb.map (fun skb => (skb,desc.dmaAddr)))

/-- The transmit path between two of its steps, in terms of the ring and the log only. -/
structure TxSound (p : Priv) : Prop where
  indices : p.txHead < 64 ∧ p.txClean < 64
  bounded : p.inFlight ≤ 63
  occupied : ∀ k, k < 64 → ((p.txRing k).skb ≠ none ↔ Within 64 p.txClean p.inFlight k)
  outside : ∀ k, k < 64 → ¬ Within 64 p.txClean p.inFlight k →
    (p.txRing k).ownedByHw = false ∧ (p.txRing k).done = false
  history : ∃ gone, p.log.filterMap TxEvent.mapped? = gone ++ p.held ∧
    p.log.filterMap TxEvent.unmapped? = gone.map (fun packet => (packet.2,packet.1.len)) ∧
    (gone.map Prod.fst).Sublist (p.log.filterMap TxEvent.freed?)
  balance : (p.log.filterMap TxEvent.accepted?).Perm
    (p.log.filterMap TxEvent.freed? ++ p.held.map Prod.fst)

/-- What the next step of the transmit path does and does not do. -/
structure TxStepSound (p : Priv) : Prop where
  busy : ∀ skb mapping q, p.startXmit skb mapping = (q,.busy) →
    q = { p with queueStopped := true, log := p.log ++ [.refused skb] }
  ok : ∀ skb mapping q, p.startXmit skb mapping = (q,.ok) →
    q.log.filterMap TxEvent.accepted? = p.log.filterMap TxEvent.accepted? ++ [skb]
  kept : ∀ label q, p.txStep label = some q → ∀ k, k < 64 → (p.txRing k).skb ≠ none →
    ((q.txRing k).skb,(q.txRing k).dmaAddr,(q.txRing k).len) =
      ((p.txRing k).skb,(p.txRing k).dmaAddr,(p.txRing k).len) ∨
    label = .clean ∧ (p.txRing k).done = true ∨ label = .remove
  returns : ∃ q, p.cleanTx = some q

namespace Loaded

theorem inFlight_eq (h : Loaded p flights) : p.inFlight = flights.length := by
  have hclean := h.clean_lt
  have hroom := h.room
  have hhead := h.head
  rw [Priv.inFlight]
  simp only [cell,txRingSize] at *
  omega

theorem held_eq (h : Loaded p flights) : p.held = flights.map Flight.packet := by
  have hwindow := h.slots.window_eq
  rw [List.length_map] at hwindow
  rw [Priv.held,h.inFlight_eq,hwindow,List.filterMap_map]
  change flights.filterMap (some ∘ Flight.packet) = _
  rw [List.filterMap_eq_map]

theorem sound (h : Loaded p flights)
    (hl : custody.Ledger p.log gone (flights.map Flight.packet)) : TxSound p := by
  have hflight := h.inFlight_eq
  have hheld := h.held_eq
  have hroom : flights.length < 64 := h.room
  refine ⟨⟨h.head_lt,h.clean_lt⟩,by omega,?_,?_,?_,?_⟩
  · intro k hk
    rw [hflight]
    have hused := h.empties.used_iff (by simp [Flight.desc]) hk
    rwa [List.length_map] at hused
  · intro k hk hw
    rw [hflight] at hw
    exact (h.slots.rest k hk (by rwa [List.length_map])).2
  · rw [hheld]
    exact ⟨gone,hl.lent,hl.returned,hl.order⟩
  · rw [hheld]
    exact hl.taken

end Loaded

theorem startXmit_busy {skb : SkBuff} {mapping : Option UInt64} {q : Priv}
    (hq : p.startXmit skb mapping = (q,.busy)) :
    q = { p with queueStopped := true, log := p.log ++ [.refused skb] } := by
  unfold Priv.startXmit at hq
  by_cases hfull : p.txRingFull = true
  · rw [if_pos hfull] at hq
    exact (Prod.mk.inj hq).1.symm
  · rw [if_neg hfull] at hq
    cases mapping <;> simp at hq

theorem startXmit_ok {skb : SkBuff} {mapping : Option UInt64} {q : Priv}
    (hq : p.startXmit skb mapping = (q,.ok)) :
    q.log.filterMap TxEvent.accepted? = p.log.filterMap TxEvent.accepted? ++ [skb] := by
  unfold Priv.startXmit at hq
  by_cases hfull : p.txRingFull = true
  · rw [if_pos hfull] at hq
    simp at hq
  · rw [if_neg hfull] at hq
    cases mapping with
    | none =>
      rw [← (Prod.mk.inj hq).1]
      change ((p.log ++ [TxEvent.kfree skb]) ++ [TxEvent.accepted skb]).filterMap _ = _
      rw [List.filterMap_append,List.filterMap_append]
      simp [TxEvent.accepted?]
    | some dma =>
      rw [← (Prod.mk.inj hq).1]
      change ((p.log ++ [TxEvent.map skb dma]) ++ [TxEvent.accepted skb]).filterMap _ = _
      rw [List.filterMap_append,List.filterMap_append]
      simp [TxEvent.accepted?]

/-- my_start_xmit writes no descriptor but the one at `tx_head`. -/
theorem startXmit_desc (skb : SkBuff) (mapping : Option UInt64) {k : ℕ} (hk : k ≠ p.txHead) :
    (p.startXmit skb mapping).1.txRing k = p.txRing k := by
  unfold Priv.startXmit
  by_cases hfull : p.txRingFull = true
  · rw [if_pos hfull]
    rfl
  · rw [if_neg hfull]
    cases mapping <;> exact Function.update_of_ne hk _ _

namespace Loaded

/-- A descriptor loses its packet to my_tx_clean only when it is done. -/
theorem cleanTx_desc (h : Loaded p flights)
    (hl : custody.Ledger p.log gone (flights.map Flight.packet)) {q : Priv} {k : ℕ}
    (hq : p.cleanTx = some q) (hk : k < txRingSize) (huse : (p.txRing k).skb ≠ none) :
    q.txRing k = p.txRing k ∨ (p.txRing k).done = true := by
  obtain ⟨r,left,released,hr,hsplit,hall,hload,-,hclean⟩ := cleanTx_spec h hl
  obtain rfl := Option.some.inj (hr.symm.trans hq)
  obtain ⟨i,hi,rfl,hdesc⟩ := h.flight_at hk fun hidle => huse hidle.1
  have hroom := h.room
  rcases Nat.lt_or_ge i released.length with hlt | hge
  · right
    have hfirst : flights[i] = released[i] := by
      simp only [hsplit,List.getElem_append_left hlt]
    rw [hdesc,hfirst]
    exact hall _ (List.getElem_mem hlt)
  · left
    have hsum : released.length+(i-released.length) = i := by omega
    have hlen := congrArg List.length hsplit
    rw [List.length_append] at hlen
    have hleft : i-released.length < left.length := by omega
    have hitem := hload.slots.item (i-released.length) (by simpa using hleft)
    rw [hclean,cell_cell,hsum,List.getElem_map] at hitem
    have hlast : flights[i] = left[i-released.length] := by
      simp only [hsplit,List.getElem_append_right hge]
    rw [hitem,hdesc,hlast]

theorem stepSound (h : Loaded p flights)
    (hl : custody.Ledger p.log gone (flights.map Flight.packet)) : TxStepSound p := by
  refine ⟨fun _ _ _ hq => startXmit_busy hq,fun _ _ _ hq => startXmit_ok hq,?_,?_⟩
  · intro label q hstep k hk huse
    unfold Priv.txStep at hstep
    rw [if_pos h.allocated] at hstep
    cases label with
    | xmit skb mapping =>
      left
      rw [← Option.some.inj hstep,startXmit_desc skb mapping]
      rintro rfl
      exact huse h.head_idle.1
    | complete i =>
      left
      obtain ⟨-,rfl⟩ := guarded_eq_some.mp hstep
      by_cases he : k = i
      · subst he
        simp [Priv.complete,Priv.setDesc]
      · simp [Priv.complete,Priv.setDesc,Function.update_of_ne he]
    | clean =>
      rcases h.cleanTx_desc hl hstep hk huse with he | hdone
      · exact .inl (by rw [he])
      · exact .inr (.inl ⟨rfl,hdone⟩)
    | remove => exact .inr (.inr rfl)
  · obtain ⟨q,-,-,hq,-⟩ := cleanTx_spec h hl
    exact ⟨q,hq⟩

end Loaded

/-- Along every interleaving of transmissions, completions in any order and reclaiming, each
packet taken with NETDEV_TX_OK is held by one descriptor until it is freed, in the order of
submission; after the removal nothing is mapped and every such packet has been freed once. -/
theorem accepted_freed_once (h : txPath.Reachable p) :
    (p.allocated = true → TxSound p ∧ TxStepSound p) ∧ (p.allocated = false → TxEnded p) := by
  rcases txPath_inv h with ⟨flights,gone,hload,hl⟩ | hended
  · refine ⟨fun _ => ⟨hload.sound hl,hload.stepSound hl⟩,fun hfreed => ?_⟩
    rw [hload.allocated] at hfreed
    contradiction
  · refine ⟨fun halloc => ?_,fun _ => hended⟩
    rw [hended.released] at halloc
    contradiction

/-- The ring just allocated. -/
def Priv.ringReady (txTail : ℕ) : Priv := { Priv.fresh txTail with allocated := true }

/-- A run with a failed mapping, completions out of order and a slot used again; then the
removal, with one packet completed and one still the device's. -/
theorem accepted_freed_once_run : ∃ p q,
    txPath.run [.xmit ⟨1,[7]⟩ (some 4096),.xmit ⟨2,[8,8]⟩ none,.xmit ⟨3,[9,9,9]⟩ (some 8192),
      .xmit ⟨4,[]⟩ (some 12288),.complete 1,.clean,.complete 0,.clean] (Priv.ringReady 9) =
      some p ∧
    (p.inFlight,p.txClean,p.log.filterMap TxEvent.freed?) =
      (1,2,[⟨2,[8,8]⟩,⟨1,[7]⟩,⟨3,[9,9,9]⟩]) ∧
    TxSound p ∧ TxStepSound p ∧
    txPath.run [.xmit ⟨5,[1]⟩ (some 4096),.complete 3,.remove] p = some q ∧
    (q.log.filterMap TxEvent.freed?,q.log.filterMap TxEvent.unmapped?) =
      ([⟨2,[8,8]⟩,⟨1,[7]⟩,⟨3,[9,9,9]⟩,⟨4,[]⟩,⟨5,[1]⟩],
        [(4096,1),(8192,3),(12288,0),(4096,1)]) ∧ TxEnded q := by
  have hmid : (txPath.run [.xmit ⟨1,[7]⟩ (some 4096),.xmit ⟨2,[8,8]⟩ none,
      .xmit ⟨3,[9,9,9]⟩ (some 8192),.xmit ⟨4,[]⟩ (some 12288),.complete 1,.clean,.complete 0,
      .clean] (Priv.ringReady 9)).map
      (fun p => (p.allocated,p.inFlight,p.txClean,p.log.filterMap TxEvent.freed?)) =
      some (true,1,2,[⟨2,[8,8]⟩,⟨1,[7]⟩,⟨3,[9,9,9]⟩]) := by decide +kernel
  have hend : (txPath.run ([.xmit ⟨1,[7]⟩ (some 4096),.xmit ⟨2,[8,8]⟩ none,
      .xmit ⟨3,[9,9,9]⟩ (some 8192),.xmit ⟨4,[]⟩ (some 12288),.complete 1,.clean,.complete 0,
      .clean] ++ [.xmit ⟨5,[1]⟩ (some 4096),.complete 3,.remove]) (Priv.ringReady 9)).map
      (fun q => (q.allocated,q.log.filterMap TxEvent.freed?,q.log.filterMap TxEvent.unmapped?)) =
      some (false,[⟨2,[8,8]⟩,⟨1,[7]⟩,⟨3,[9,9,9]⟩,⟨4,[]⟩,⟨5,[1]⟩],
        [(4096,1),(8192,3),(12288,0),(4096,1)]) := by decide +kernel
  obtain ⟨p,hp,hout⟩ := Option.map_eq_some_iff.mp hmid
  obtain ⟨q,hq,hlast⟩ := Option.map_eq_some_iff.mp hend
  rw [Machine.run_append,hp,Option.bind_some] at hq
  obtain ⟨halloc,hout⟩ := Prod.mk.inj hout
  obtain ⟨hfreed,hlast⟩ := Prod.mk.inj hlast
  have hinit : txPath.Reachable (Priv.ringReady 9) := .init ⟨true,9,rfl⟩
  have hreach := Machine.Reachable.of_run hinit hp
  obtain ⟨hsound,hsteps⟩ := (accepted_freed_once hreach).1 halloc
  exact ⟨p,q,hp,hout,hsound,hsteps,hq,hlast,
    (accepted_freed_once (Machine.Reachable.of_run hreach hq)).2 hfreed⟩

end NetLab.SimpleNetdev
