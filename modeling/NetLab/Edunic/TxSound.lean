import Mathlib
import NetLab.Edunic.TxPath

/-! What the transmit path guarantees, in terms of the ring's two indices, the registers, the
worker and the log only. -/
namespace NetLab.Edunic
open NetLab.Ring

variable {a : Adapter} {queue gone : List TxBuf} {d : ℕ}

/-- The number of slots in flight, going around the ring from `next_to_clean`. -/
def TxRing.inFlight (r : TxRing) : ℕ := (r.nextToUse+r.count-r.nextToClean) % r.count

/-- The packets in flight, in ring order. -/
def TxRing.held (r : TxRing) : List TxBuf := window ringSize r.buf r.nextToClean r.inFlight

/-- The transmit path between two of its steps, in terms of the ring, the registers, the worker
and the log only. -/
structure TxSound (a : Adapter) : Prop where
  indices : a.txRing.nextToUse < 256 ∧ a.txRing.nextToClean < 256 ∧ a.tdh < 256 ∧ a.tdt < 256
  workerIndices : ∀ w, a.txWorker = some w → w.head < 256 ∧ w.tail < 256
  doorbell : a.tdt = a.txRing.nextToUse
  bounded : a.txRing.inFlight ≤ 255
  occupied : ∀ k, k < 256 →
    ((a.txRing.buf k).skb ≠ none ↔ Within 256 a.txRing.nextToClean a.txRing.inFlight k)
  freeSlot : (a.txRing.buf a.txRing.nextToUse).skb = none
  history : ∃ gone d, d ≤ a.txRing.inFlight ∧
    mapped a.log = gone ++ a.txRing.held ∧
    completed a.log = gone ++ a.txRing.held.take d ∧
    unmapped a.log = gone.map TxBuf.mapping ∧
    (consumed a.log).map some = gone.map TxBuf.skb ∧
    ∀ k, k < 256 → ((a.txRing.desc k).done = true ↔ Within 256 a.txRing.nextToClean d k)
  balance : (accepted a.log).Perm
    (kfreed a.log ++ consumed a.log ++ a.txRing.held.filterMap TxBuf.skb)
  working : ∀ w, a.txWorker = some w → w.head ≠ w.tail →
    a.txRing.buf w.head ∈ a.txRing.held ∧ (a.txRing.desc w.head).done = false
  awake : (completed a.log).length < (mapped a.log).length →
    a.workPending = true ∨ ∃ w, a.txWorker = some w ∧ w.tail = a.tdt

theorem Loaded.inFlight_eq (h : Loaded a queue d) : a.txRing.inFlight = queue.length := by
  have hclean := h.clean_lt
  have hroom := h.room
  have huse := h.use
  rw [TxRing.inFlight,h.count]
  simp only [cell,ringSize] at *
  omega

theorem Loaded.held_eq (h : Loaded a queue d) : a.txRing.held = queue := by
  rw [TxRing.held,h.inFlight_eq]
  exact h.slots.window_eq

theorem Loaded.sound (h : Loaded a queue d) (hl : Ledger a.log gone queue d) : TxSound a := by
  have hflight := h.inFlight_eq
  have hheld := h.held_eq
  have hroom : queue.length < 256 := h.room
  have hengine := h.engine
  refine ⟨⟨h.use_lt,h.clean_lt,?_,?_⟩,?_,h.tail,by omega,?_,h.free_slot,?_,?_,?_,?_⟩
  · cases hw : a.txWorker with
    | none =>
      rw [hw] at hengine
      cases hengine with
      | idle head kick =>
        rw [head]
        exact cell_lt ringSize_pos
    | some w =>
      rw [hw] at hengine
      cases hengine with
      | running ahead shown bound head tail unsent kick => exact bound
  · rw [h.tail]
    exact h.use_lt
  · intro w hw
    rw [hw] at hengine
    cases hengine with
    | running ahead shown bound head tail unsent kick =>
      rw [head,tail]
      exact ⟨cell_lt ringSize_pos,cell_lt ringSize_pos⟩
  · intro k hk
    rw [hflight]
    exact h.slots.used_iff h.skbs hk
  · refine ⟨gone,d,by rw [hflight]; exact h.done_le,?_,?_,hl.unmapped,hl.consumed,?_⟩
    · rw [hheld]
      exact hl.mapped
    · rw [hheld]
      exact hl.completed
    · exact fun k hk => h.dones.iff_within hk
  · rw [hheld,← hl.filterMap_gone,List.append_assoc,← List.filterMap_append]
    exact hl.accepted
  · intro w hw hne
    obtain ⟨hd,hbuf,hdone⟩ := h.worker_slot hw hne
    rw [hheld,hbuf]
    exact ⟨List.getElem_mem hd,hdone⟩
  · intro hlt
    have hd : d < queue.length := by
      rw [hl.completed,hl.mapped] at hlt
      simpa using hlt
    cases hw : a.txWorker with
    | none =>
      rw [hw] at hengine
      cases hengine with
      | idle head kick => exact .inl (kick hd)
    | some w =>
      rw [hw] at hengine
      cases hengine with
      | @running _ t ahead shown bound head tail unsent kick =>
        rcases Nat.lt_or_ge t queue.length with ht | ht
        · exact .inl (kick ht)
        · obtain rfl : t = queue.length := le_antisymm shown ht
          exact .inr ⟨w,rfl,by rw [tail,h.tail,h.use]⟩

/-- What the next step of the transmit path does and does not do. -/
structure TxStepSound (a : Adapter) : Prop where
  busy : ∀ skb mapping b, a.startXmit skb mapping = (b,.busy) →
    b = { a with queueStopped := true, log := a.log ++ [.refused skb] }
  ok : ∀ skb mapping b, a.startXmit skb mapping = (b,.ok) → accepted b.log = accepted a.log ++ [skb]
  round : ∀ kmallocOk b, a.txStep (.workerRound kmallocOk) = some b →
    ∃ buf len, buf ∈ a.txRing.held ∧ buf.skb ≠ none ∧
      b.log = a.log ++ (fetch buf len kmallocOk ++ [.complete buf])
  kept : ∀ label b, a.txStep label = some b → ∀ k, k < 256 → (a.txRing.buf k).skb ≠ none →
    b.txRing.buf k = a.txRing.buf k ∨ label = .clean ∧ (a.txRing.desc k).done = true ∨ label = .remove
  returns : ∃ r, a.cleanTxIrq = some r

/-- edunic_start_xmit writes no slot but the one at `next_to_use`. -/
theorem startXmit_buf (h : Loaded a queue d) (skb : SkBuff) (mapping : Option UInt64) {k : ℕ}
    (hk : k ≠ a.txRing.nextToUse) :
    (a.startXmit skb mapping).1.txRing.buf k = a.txRing.buf k := by
  rw [Adapter.startXmit,h.maybeStop]
  by_cases hroom : queue.length+1 < ringSize
  · rw [if_pos hroom]
    cases mapping with
    | none => rfl
    | some dma =>
      obtain ⟨stopped,hstop⟩ := maybeStopTx_fst
        ((a.note [.map skb dma]).post skb dma).ringDoorbell.hwKickTx txDescPerPkt
      dsimp only
      rw [hstop]
      exact Function.update_of_ne hk _ _
  · rw [if_neg hroom]
    rfl

theorem startXmit_busy (h : Loaded a queue d) {skb : SkBuff} {mapping : Option UInt64}
    {b : Adapter} (hb : a.startXmit skb mapping = (b,.busy)) :
    b = { a with queueStopped := true, log := a.log ++ [.refused skb] } := by
  rw [Adapter.startXmit,h.maybeStop] at hb
  by_cases hroom : queue.length+1 < ringSize
  · rw [if_pos hroom] at hb
    cases mapping <;> simp at hb
  · rw [if_neg hroom] at hb
    exact (Prod.mk.inj hb).1.symm

theorem startXmit_ok (h : Loaded a queue d) {skb : SkBuff} {mapping : Option UInt64}
    {b : Adapter} (hb : a.startXmit skb mapping = (b,.ok)) :
    accepted b.log = accepted a.log ++ [skb] := by
  rw [Adapter.startXmit,h.maybeStop] at hb
  by_cases hroom : queue.length+1 < ringSize
  · rw [if_pos hroom] at hb
    cases mapping with
    | none =>
      rw [← (Prod.mk.inj hb).1]
      exact accepted_append _ _
    | some dma =>
      obtain ⟨stopped,hstop⟩ := maybeStopTx_fst
        ((a.note [.map skb dma]).post skb dma).ringDoorbell.hwKickTx txDescPerPkt
      dsimp only at hb
      rw [hstop] at hb
      rw [← (Prod.mk.inj hb).1]
      change accepted ((a.log ++ [.map skb dma]) ++ [.accepted skb]) = _
      rw [accepted_append,accepted_append]
      simp [accepted,List.filterMap_cons,TxEvent.accepted?]
  · rw [if_neg hroom] at hb
    simp at hb

/-- A slot loses its packet to edunic_clean_tx_irq only when it is done. -/
theorem cleanTxIrq_buf (h : Loaded a queue d) (hl : Ledger a.log gone queue d) {b : Adapter}
    {n k : ℕ} (hb : a.cleanTxIrq = some (b,n)) (hk : k < ringSize)
    (hskb : (a.txRing.buf k).skb ≠ none) :
    b.txRing.buf k = a.txRing.buf k ∨ (a.txRing.desc k).done = true := by
  obtain ⟨c,hc,hload,-,hclean⟩ := cleanTxIrq_spec h hl
  obtain ⟨rfl,-⟩ := Prod.mk.inj (Option.some.inj (hb.symm.trans hc))
  obtain ⟨i,hi,rfl⟩ := (h.slots.used_iff h.skbs hk).mp hskb
  have hroom := h.room
  have hle := h.done_le
  rcases Nat.lt_or_ge i d with hd | hd
  · exact .inr ((h.dones.at_cell (by omega) (by omega)).mpr hd)
  · have hleft : i-d < (queue.drop d).length := by
      rw [List.length_drop]
      omega
    have hitem := hload.slots.item (i-d) hleft
    rw [hclean,cell_cell,Nat.add_sub_cancel' hd] at hitem
    rw [hitem,h.slots.item i hi,List.getElem_drop]
    simp only [Nat.add_sub_cancel' hd]
    exact .inl trivial

theorem Loaded.stepSound (h : Loaded a queue d) (hl : Ledger a.log gone queue d) :
    TxStepSound a := by
  refine ⟨fun _ _ _ hb => startXmit_busy h hb,fun _ _ _ hb => startXmit_ok h hb,?_,?_,?_⟩
  · intro kmallocOk b hb
    obtain ⟨-,w,hw,hne,rfl⟩ := txStep_cases hb
    obtain ⟨hd,hbuf,-⟩ := h.worker_slot hw hne
    refine ⟨a.txRing.buf w.head,(a.txRing.desc w.head).length.toNat,?_,?_,rfl⟩
    · rw [h.held_eq,hbuf]
      exact List.getElem_mem hd
    · rw [hbuf]
      exact h.skbs _ (List.getElem_mem hd)
  · intro label b hb k hk hskb
    obtain ⟨-,hstep⟩ := txStep_cases hb
    cases label with
    | xmit skb mapping =>
      rw [hstep]
      refine .inl (startXmit_buf h skb mapping fun he => hskb ?_)
      rw [he]
      exact h.free_slot
    | clean =>
      obtain ⟨n,hn⟩ := hstep
      rcases cleanTxIrq_buf h hl hn hk hskb with he | hdone
      · exact .inl he
      · exact .inr (.inl ⟨rfl,hdone⟩)
    | workerStart =>
      rw [hstep.2]
      exact .inl rfl
    | workerRound ok =>
      obtain ⟨w,-,-,rfl⟩ := hstep
      exact .inl rfl
    | workerEnd =>
      obtain ⟨w,-,-,rfl⟩ := hstep
      rw [Adapter.hwTxWorkerEnd]
      split <;> exact .inl rfl
    | remove => exact .inr (.inr rfl)
  · obtain ⟨b,hb,-⟩ := cleanTxIrq_spec h hl
    exact ⟨_,hb⟩

/-- Along every interleaving of transmissions, device work and reclaiming, each accepted packet
is held by one slot until it is released, in the order of acceptance; after removal every
mapping has been given back and every accepted packet freed, once each. -/
theorem accepted_released_once (h : txPath.Reachable a) :
    (a.txRing.allocated = true → TxSound a ∧ TxStepSound a) ∧
      (a.txRing.allocated = false → TxEnded a) := by
  rcases txPath_inv h with ⟨gone,queue,d,hload,hl⟩ | hended
  · refine ⟨fun _ => ⟨hload.sound hl,hload.stepSound hl⟩,fun hfreed => ?_⟩
    rw [hload.allocated] at hfreed
    contradiction
  · refine ⟨fun halloc => ?_,fun _ => hended⟩
    rw [hended.released] at halloc
    contradiction

/-- A run with a failed mapping, a packet posted while the worker runs and a slot reclaimed
before the worker has written TDH; then the removal, with two packets still in flight. -/
theorem accepted_released_once_run : ∃ a b,
    txPath.run [.xmit ⟨1,[7]⟩ (some 4096),.xmit ⟨2,[8,8]⟩ none,.xmit ⟨3,[9,9,9]⟩ (some 8192),
      .workerStart,.workerRound true,.clean,.xmit ⟨4,[]⟩ (some 4096)] (probed emptyTxRing 5 9) =
      some a ∧
    (a.txRing.inFlight,a.tdh,a.txRing.nextToClean,consumed a.log) = (2,0,1,[⟨1,[7]⟩]) ∧
    TxSound a ∧ TxStepSound a ∧
    txPath.run [.workerRound false,.workerEnd,.remove] a = some b ∧
    (kfreed b.log,unmapped b.log) = ([⟨2,[8,8]⟩,⟨3,[9,9,9]⟩,⟨4,[]⟩],[(4096,1),(8192,3),(4096,0)]) ∧
    TxEnded b := by
  have hmid : (txPath.run [.xmit ⟨1,[7]⟩ (some 4096),.xmit ⟨2,[8,8]⟩ none,
      .xmit ⟨3,[9,9,9]⟩ (some 8192),.workerStart,.workerRound true,.clean,
      .xmit ⟨4,[]⟩ (some 4096)] (probed emptyTxRing 5 9)).map
      (fun a => (a.txRing.allocated,a.txRing.inFlight,a.tdh,a.txRing.nextToClean,consumed a.log)) =
      some (true,2,0,1,[⟨1,[7]⟩]) := by decide +kernel
  have hend : (txPath.run ([.xmit ⟨1,[7]⟩ (some 4096),.xmit ⟨2,[8,8]⟩ none,
      .xmit ⟨3,[9,9,9]⟩ (some 8192),.workerStart,.workerRound true,.clean,
      .xmit ⟨4,[]⟩ (some 4096)] ++ [.workerRound false,.workerEnd,.remove])
      (probed emptyTxRing 5 9)).map (fun b => (b.txRing.allocated,kfreed b.log,unmapped b.log)) =
      some (false,[⟨2,[8,8]⟩,⟨3,[9,9,9]⟩,⟨4,[]⟩],[(4096,1),(8192,3),(4096,0)]) := by decide +kernel
  obtain ⟨a,ha,hout⟩ := Option.map_eq_some_iff.mp hmid
  obtain ⟨b,hb,hlast⟩ := Option.map_eq_some_iff.mp hend
  rw [Machine.run_append,ha,Option.bind_some] at hb
  obtain ⟨halloc,hout⟩ := Prod.mk.inj hout
  obtain ⟨hfreed,hlast⟩ := Prod.mk.inj hlast
  have hinit : txPath.Reachable (probed emptyTxRing 5 9) := .init ⟨true,true,emptyTxRing,5,9,rfl,rfl⟩
  have hreach := Machine.Reachable.of_run hinit ha
  obtain ⟨hsound,hsteps⟩ := (accepted_released_once hreach).1 halloc
  exact ⟨a,b,ha,hout,hsound,hsteps,hb,hlast,
    (accepted_released_once (Machine.Reachable.of_run hreach hb)).2 hfreed⟩

end NetLab.Edunic
