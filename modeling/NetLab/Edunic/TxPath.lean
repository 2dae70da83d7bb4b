import Mathlib
import NetLab.Foundation.Sweep
import NetLab.Edunic.TxLedger

/-! The transmit path as a queue in a ring. The ring holds the packets in flight from
`next_to_clean` on and the device has completed the first of them; every step of the driver and
of the device moves that queue and its ledger together. -/
namespace NetLab.Edunic
open NetLab.Ring

theorem next_eq (i : ℕ) : next i = cell ringSize i 1 := by
  simp only [next,cell,ringMask,ringSize]
  exact Nat.and_two_pow_sub_one_eq_mod (i+1) 8

theorem next_cell (lo i : ℕ) : next (cell ringSize lo i) = cell ringSize lo (i+1) := by
  rw [next_eq,cell_cell]

/-! ### Where everybody stands -/

/-- The device when it has completed the first `d` of the `m` packets from slot `lo` on. A
packet behind the tail it works up to has left a kick behind. -/
inductive Engine (tdh : ℕ) (pending : Bool) (lo m d : ℕ) : Option TxWorker → Prop
  | idle (head : tdh = cell ringSize lo d) (kick : d < m → pending = true) :
    Engine tdh pending lo m d none
  | running {w : TxWorker} {t : ℕ} (ahead : d ≤ t) (shown : t ≤ m) (bound : tdh < ringSize)
    (head : w.head = cell ringSize lo d) (tail : w.tail = cell ringSize lo t)
    (unsent : w.sentAny = false → tdh = w.head) (kick : t < m → pending = true) :
    Engine tdh pending lo m d (some w)

/-- The ring holds `queue` from `next_to_clean` on and the device has completed the first `d`
packets of it. -/
structure Loaded (a : Adapter) (queue : List TxBuf) (d : ℕ) : Prop where
  allocated : a.txRing.allocated = true
  count : a.txRing.count = ringSize
  clean_lt : a.txRing.nextToClean < ringSize
  room : queue.length < ringSize
  use : a.txRing.nextToUse = cell ringSize a.txRing.nextToClean queue.length
  tail : a.tdt = a.txRing.nextToUse
  slots : Holds ringSize (fun b => b.skb = none) a.txRing.buf a.txRing.nextToClean queue
  skbs : ∀ b ∈ queue, b.skb ≠ none
  done_le : d ≤ queue.length
  dones : Marked ringSize (fun k => (a.txRing.desc k).done) a.txRing.nextToClean d
  engine : Engine a.tdh a.workPending a.txRing.nextToClean queue.length d a.txWorker

@[simp] theorem done_cleared (addr : UInt64) (len : UInt16) (cmd : UInt8) :
    TxDesc.done ⟨addr,len,cmd,0⟩ = false := by
  change ((0 : UInt8) &&& txdStatDD != 0) = false
  decide

@[simp] theorem done_set (addr : UInt64) (len : UInt16) (cmd : UInt8) :
    TxDesc.done ⟨addr,len,cmd,txdStatDD⟩ = true := by
  change (txdStatDD &&& txdStatDD != 0) = true
  decide

theorem done_update (desc : ℕ → TxDesc) (i : ℕ) (x : TxDesc) :
    (fun k => (Function.update desc i x k).done) =
      Function.update (fun k => (desc k).done) i x.done := by
  funext k
  by_cases hk : k = i
  · subst hk
    simp
  · simp [hk]

theorem ringSize_pos : 0 < ringSize := by decide

namespace Loaded

variable {a : Adapter} {queue : List TxBuf} {d : ℕ}

theorem use_lt (h : Loaded a queue d) : a.txRing.nextToUse < ringSize := by
  rw [h.use]
  exact cell_lt ringSize_pos

/-- edunic_tx_unused counts the slots that are not in flight, but for the one kept free. -/
theorem unused (h : Loaded a queue d) : a.txRing.unused = ringSize-1-queue.length := by
  have hclean := h.clean_lt
  have hroom := h.room
  have huse := h.use
  have hlt := h.use_lt
  rw [TxRing.unused,u16,h.count]
  simp only [cell,ringSize] at *
  rw [Int.tmod_eq_emod_of_nonneg (by omega)]
  omega

theorem maybeStop (h : Loaded a queue d) : a.maybeStopTx txDescPerPkt =
    if queue.length+1 < ringSize then (a,false) else ({ a with queueStopped := true },true) := by
  have hroom : queue.length < ringSize := h.room
  have hfits : txDescPerPkt ≤ a.txRing.unused ↔ queue.length+1 < ringSize := by
    rw [h.unused,txDescPerPkt]
    omega
  by_cases hfull : queue.length+1 < ringSize
  · rw [Adapter.maybeStopTx,if_pos (hfits.mpr hfull),if_pos hfull]
  · rw [Adapter.maybeStopTx,if_neg (mt hfits.mp hfull),if_neg hfull]
    exact if_pos (not_le.mp (mt hfits.mp hfull))

/-- The queue flag, the counters and the log are not part of the ring. -/
theorem frame (h : Loaded a queue d) (stats : TxStats) (stopped : Bool) (log : List TxEvent) :
    Loaded { a with stats, queueStopped := stopped, log } queue d :=
  ⟨h.allocated,h.count,h.clean_lt,h.room,h.use,h.tail,h.slots,h.skbs,h.done_le,h.dones,h.engine⟩

/-- The slot at `next_to_use` holds no packet. -/
theorem free_slot (h : Loaded a queue d) : (a.txRing.buf a.txRing.nextToUse).skb = none := by
  rw [h.use]
  exact h.slots.next_blank h.room

/-- Posting a packet when there is room: it takes the slot after the last one in flight. -/
theorem post (h : Loaded a queue d) (hroom : queue.length+1 < ringSize) (skb : SkBuff)
    (dma : UInt64) : Loaded (a.post skb dma).ringDoorbell.hwKickTx
      (queue++[⟨some skb,dma,skb.len⟩]) d := by
  have huse := h.use
  refine ⟨h.allocated,h.count,h.clean_lt,by simpa using hroom,?_,rfl,?_,?_,?_,?_,?_⟩
  · change next a.txRing.nextToUse = _
    rw [huse,next_cell,List.length_append,List.length_singleton]
    rfl
  · change Holds _ _ (Function.update a.txRing.buf a.txRing.nextToUse _) _ _
    rw [huse]
    exact h.slots.push h.room _
  · intro b hb
    rcases List.mem_append.mp hb with hb | hb
    · exact h.skbs b hb
    · rw [List.mem_singleton.mp hb]
      simp
  · rw [List.length_append]
    exact h.done_le.trans (Nat.le_add_right _ _)
  · change Marked _ (fun k => (Function.update a.txRing.desc a.txRing.nextToUse _ k).done) _ _
    rw [done_update,huse,done_cleared]
    exact h.dones.unmark h.done_le h.room
  · have hengine := h.engine
    change Engine a.tdh true a.txRing.nextToClean _ d a.txWorker
    rw [List.length_append,List.length_singleton]
    cases hw : a.txWorker with
    | none =>
      rw [hw] at hengine
      cases hengine with
      | idle head kick => exact .idle head (fun _ => rfl)
    | some w =>
      rw [hw] at hengine
      cases hengine with
      | running ahead shown bound head tail unsent kick =>
        exact .running ahead (shown.trans (Nat.le_succ _)) bound head tail unsent (fun _ => rfl)

/-- The worker starts: everything posted so far lies before the tail it reads. -/
theorem workerStart (h : Loaded a queue d) (hidle : a.txWorker = none) :
    Loaded a.hwTxWorkerStart queue d := by
  have hengine := h.engine
  rw [hidle] at hengine
  refine ⟨h.allocated,h.count,h.clean_lt,h.room,h.use,h.tail,h.slots,h.skbs,h.done_le,h.dones,?_⟩
  cases hengine with
  | idle head kick =>
    refine .running h.done_le le_rfl ?_ head (h.tail.trans h.use) (fun _ => rfl)
      (fun hlt => absurd hlt (lt_irrefl _))
    rw [show a.hwTxWorkerStart.tdh = a.tdh from rfl,head]
    exact cell_lt ringSize_pos

/-- A worker that has not reached its tail stands at a packet that is in flight and not done. -/
theorem worker_slot (h : Loaded a queue d) {w : TxWorker} (hw : a.txWorker = some w)
    (hne : w.head ≠ w.tail) : ∃ hd : d < queue.length, a.txRing.buf w.head = queue[d] ∧
      (a.txRing.desc w.head).done = false := by
  have hengine := h.engine
  have hroom := h.room
  rw [hw] at hengine
  cases hengine with
  | running ahead shown bound head tail unsent kick =>
    rename_i t
    have hdt : d < t := by
      refine lt_of_le_of_ne ahead fun he => hne ?_
      rw [head,tail,he]
    refine ⟨by omega,?_,?_⟩
    · rw [head]
      exact h.slots.item d (by omega)
    · rw [head,← Bool.not_eq_true,h.dones.at_cell (by omega) (by omega)]
      exact lt_irrefl _

/-- One round of the worker completes the first packet that was not done. -/
theorem workerRound (h : Loaded a queue d) {w : TxWorker} (hw : a.txWorker = some w)
    (hne : w.head ≠ w.tail) (kmallocOk : Bool) :
    Loaded (a.hwTxWorkerRound w kmallocOk) queue (d+1) := by
  obtain ⟨hd,-,-⟩ := h.worker_slot hw hne
  have hengine := h.engine
  have hroom := h.room
  rw [hw] at hengine
  cases hengine with
  | running ahead shown bound head tail unsent kick =>
    rename_i t
    have hdt : d < t := by
      refine lt_of_le_of_ne ahead fun he => hne ?_
      rw [head,tail,he]
    refine ⟨h.allocated,h.count,h.clean_lt,h.room,h.use,h.tail,h.slots,h.skbs,hd,?_,?_⟩
    · change Marked _ (fun k => (Function.update a.txRing.desc w.head _ k).done) _ _
      rw [done_update,head,done_set]
      exact h.dones.mark (by omega)
    · refine .running hdt shown bound ?_ tail ?_ kick
      · change next w.head = _
        rw [head,next_cell]
        rfl
      · intro hsent
        exact absurd hsent (by simp)

/-- The worker ends at its tail and leaves TDH there. -/
theorem workerEnd (h : Loaded a queue d) {w : TxWorker} (hw : a.txWorker = some w)
    (heq : w.head = w.tail) : Loaded (a.hwTxWorkerEnd w) queue d := by
  have hengine := h.engine
  have hroom := h.room
  rw [hw] at hengine
  cases hengine with
  | running ahead shown bound head tail unsent kick =>
    rename_i t
    have hdt : d = t := by
      rw [head,tail,cell_inj (by omega) (by omega)] at heq
      exact heq
    subst hdt
    rw [Adapter.hwTxWorkerEnd]
    split
    · exact ⟨h.allocated,h.count,h.clean_lt,h.room,h.use,h.tail,h.slots,h.skbs,h.done_le,h.dones,
        .idle head kick⟩
    · next hs =>
      exact ⟨h.allocated,h.count,h.clean_lt,h.room,h.use,h.tail,h.slots,h.skbs,h.done_le,h.dones,
        .idle ((unsent (by simpa using hs)).trans head) kick⟩

end Loaded

/-! ### Reclaiming -/

/-- The adapter with another `next_to_clean`; the loop of edunic_clean_tx_irq keeps the index
it has come to in a local. -/
def Adapter.cleanedTo (a : Adapter) (i : ℕ) : Adapter :=
  { a with txRing := { a.txRing with nextToClean := i } }

variable {a : Adapter} {queue gone : List TxBuf} {d i : ℕ}

theorem reclaim_log {skb : SkBuff} {dma : UInt64} {len : ℕ}
    (hbuf : a.txRing.buf i = ⟨some skb,dma,len⟩) :
    (a.reclaim i).log = a.log ++ [.unmap dma len,.consume skb] := by
  change a.log ++ _ = _
  rw [hbuf]
  rfl

/-- One round of the loop: the first packet leaves the ring. -/
theorem Loaded.reclaim {b : TxBuf} (h : Loaded (a.cleanedTo i) (b::queue) (d+1)) :
    Loaded ((a.reclaim i).cleanedTo (next i)) queue d := by
  have hi : i < ringSize := h.clean_lt
  have hroom : queue.length+1 < ringSize := by simpa using h.room
  have hle : d+1 ≤ queue.length+1 := by simpa using h.done_le
  have hcell : ∀ j, cell ringSize i (j+1) = cell ringSize (next i) j := by
    intro j
    rw [next_eq,cell_cell,Nat.add_comm]
  refine ⟨h.allocated,h.count,?_,by omega,?_,h.tail,?_,?_,by omega,?_,?_⟩
  · change next i < ringSize
    rw [next_eq]
    exact cell_lt ringSize_pos
  · exact h.use.trans (hcell _)
  · change Holds _ _ (Function.update a.txRing.buf i _) (next i) _
    rw [next_eq]
    exact h.slots.pop hi (by omega) rfl
  · exact fun c hc => h.skbs c (List.mem_cons_of_mem _ hc)
  · change Marked _ (fun k => (Function.update a.txRing.desc i _ k).done) (next i) _
    rw [done_update,next_eq,done_cleared]
    exact h.dones.clear hi (by omega)
  · have hengine := h.engine
    change Engine a.tdh a.workPending i _ _ a.txWorker at hengine
    change Engine a.tdh a.workPending (next i) _ _ a.txWorker
    cases hw : a.txWorker with
    | none =>
      rw [hw] at hengine
      cases hengine with
      | idle head kick =>
        exact .idle (head.trans (hcell _)) (fun hlt => kick (by simpa using hlt))
    | some w =>
      rw [hw] at hengine
      cases hengine with
      | @running _ t ahead shown bound head tail unsent kick =>
        obtain ⟨t,rfl⟩ : ∃ u, t = u+1 := ⟨t-1,by omega⟩
        exact .running (by omega) (by simpa using shown) bound (head.trans (hcell _))
          (tail.trans (hcell _)) unsent (fun hlt => kick (by simpa using hlt))

/-- The loop stops at the first packet that is not done. -/
theorem Loaded.cleanLoop_stop (h : Loaded (a.cleanedTo i) queue 0) :
    ¬ (i ≠ a.txRing.nextToUse ∧ (a.txRing.desc i).done) := by
  have hi : i < ringSize := h.clean_lt
  rintro ⟨-,hdone⟩
  have hmark := h.dones.at_cell (Nat.zero_le _) ringSize_pos
  rw [show (a.cleanedTo i).txRing.nextToClean = i from rfl,cell_zero hi] at hmark
  exact absurd (hmark.mp hdone) (lt_irrefl _)

theorem Loaded.cleanLoop_go {b : TxBuf} (h : Loaded (a.cleanedTo i) (b::queue) (d+1)) :
    i ≠ a.txRing.nextToUse ∧ (a.txRing.desc i).done := by
  have hi : i < ringSize := h.clean_lt
  have hroom : queue.length+1 < ringSize := by simpa using h.room
  have hle : d+1 ≤ queue.length+1 := by simpa using h.done_le
  have hfirst : cell ringSize i 0 = i := cell_zero hi
  constructor
  · have huse : a.txRing.nextToUse = cell ringSize i (queue.length+1) := h.use
    rw [huse]
    nth_rewrite 1 [← hfirst]
    rw [ne_eq,cell_inj ringSize_pos hroom]
    omega
  · have hmark := h.dones.at_cell (by omega) ringSize_pos
    rw [show (a.cleanedTo i).txRing.nextToClean = i from rfl,hfirst] at hmark
    exact hmark.mpr (Nat.succ_pos d)

/-- The whole loop releases exactly the completed packets; induction on their number. -/
theorem cleanLoop_spec {fuel : ℕ} (h : Loaded (a.cleanedTo i) queue d)
    (hl : Ledger a.log gone queue d) (hfuel : d < fuel) (packets : ℕ) (bytes : UInt32) :
    ∃ b n, a.cleanLoop fuel i packets bytes = some (b,cell ringSize i d,packets+d,n) ∧
      Loaded (b.cleanedTo (cell ringSize i d)) (queue.drop d) 0 ∧
      Ledger b.log (gone++queue.take d) (queue.drop d) 0 := by
  induction d generalizing a i queue gone fuel packets bytes with
  | zero =>
    obtain ⟨fuel,rfl⟩ : ∃ f, fuel = f+1 := ⟨fuel-1,by omega⟩
    have hi : i < ringSize := h.clean_lt
    rw [Adapter.cleanLoop,if_neg h.cleanLoop_stop,cell_zero hi]
    exact ⟨a,bytes,rfl,by simpa using h,by simpa using hl⟩
  | succ d ih =>
    obtain ⟨fuel,rfl⟩ : ∃ f, fuel = f+1 := ⟨fuel-1,by omega⟩
    cases queue with
    | nil => exact absurd h.done_le (by simp)
    | cons buf queue =>
      obtain ⟨skb,dma,len⟩ := buf
      obtain ⟨skb,rfl⟩ := Option.ne_none_iff_exists'.mp (h.skbs _ List.mem_cons_self)
      have hbuf : a.txRing.buf i = ⟨some skb,dma,len⟩ := h.slots.front h.clean_lt
      have hlog : Ledger (a.reclaim i).log (gone++[⟨some skb,dma,len⟩]) queue d := by
        rw [reclaim_log hbuf]
        exact hl.release
      obtain ⟨b,n,hrun,hb,hbl⟩ := ih h.reclaim hlog (Nat.lt_of_succ_lt_succ hfuel) (packets+1)
        (bytes+UInt32.ofNat (a.txRing.buf i).len)
      have hend : cell ringSize (next i) d = cell ringSize i (d+1) := by
        rw [next_eq,cell_cell,Nat.add_comm]
      rw [hend] at hrun hb
      refine ⟨b,n,?_,hb,?_⟩
      · rw [Adapter.cleanLoop,if_pos h.cleanLoop_go,hrun,Nat.add_right_comm,Nat.add_assoc]
      · simpa using hbl

/-- edunic_clean_tx_irq returns, having released exactly the completed packets. -/
theorem cleanTxIrq_spec (h : Loaded a queue d) (hl : Ledger a.log gone queue d) :
    ∃ b, a.cleanTxIrq = some (b,d) ∧ Loaded b (queue.drop d) 0 ∧
      Ledger b.log (gone++queue.take d) (queue.drop d) 0 ∧
      b.txRing.nextToClean = cell ringSize a.txRing.nextToClean d := by
  have hfuel : d < ringSize := h.done_le.trans_lt h.room
  have hstart : Loaded (a.cleanedTo a.txRing.nextToClean) queue d := h
  obtain ⟨b,n,hrun,hb,hbl⟩ := cleanLoop_spec hstart hl hfuel 0 0
  rw [Nat.zero_add] at hrun
  have hout : a.cleanTxIrq = some
      (if d ≠ 0 then (b.cleanedTo (cell ringSize a.txRing.nextToClean d)).cleaned d n
        else b.cleanedTo (cell ringSize a.txRing.nextToClean d),d) := by
    simp only [Adapter.cleanTxIrq,hrun,Option.bind_eq_bind,Option.bind_some]
    by_cases hd : d ≠ 0
    · rw [if_pos hd,if_pos hd]
      rfl
    · rw [if_neg hd,if_neg hd]
      rfl
  refine ⟨_,hout,?_⟩
  split
  · rw [Adapter.cleaned]
    split <;> exact ⟨hb.frame _ _ _,hbl,rfl⟩
  · exact ⟨hb,hbl,rfl⟩

/-! ### Transmitting -/

/-- Stopping and waking the network queue touches nothing else. -/
theorem maybeStopTx_fst (a : Adapter) (needed : ℕ) :
    ∃ stopped, (a.maybeStopTx needed).1 = { a with queueStopped := stopped } := by
  rw [Adapter.maybeStopTx]
  split
  · exact ⟨a.queueStopped,rfl⟩
  · dsimp only
    split
    · exact ⟨true,rfl⟩
    · exact ⟨false,rfl⟩

/-- A packet is posted behind those in flight, is freed because it cannot be mapped, or is
left alone because the ring is full. -/
theorem startXmit_spec (h : Loaded a queue d) (hl : Ledger a.log gone queue d) (skb : SkBuff)
    (mapping : Option UInt64) : ∃ queue', Loaded (a.startXmit skb mapping).1 queue' d ∧
      Ledger (a.startXmit skb mapping).1.log gone queue' d := by
  rw [Adapter.startXmit,h.maybeStop]
  by_cases hroom : queue.length+1 < ringSize
  · rw [if_pos hroom]
    cases mapping with
    | none => exact ⟨queue,h.frame _ _ _,hl.drop skb⟩
    | some dma =>
      have hposted := (h.frame a.stats a.queueStopped (a.log++[.map skb dma])).post hroom skb dma
      obtain ⟨stopped,hstop⟩ := maybeStopTx_fst
        ((a.note [.map skb dma]).post skb dma).ringDoorbell.hwKickTx txDescPerPkt
      refine ⟨queue++[⟨some skb,dma,skb.len⟩],?_,?_⟩
      · dsimp only
        rw [hstop]
        exact hposted.frame _ _ _
      · have hlog := hl.post h.done_le skb dma
        rw [← List.singleton_append,← List.append_assoc] at hlog
        dsimp only
        rw [hstop]
        exact hlog
  · rw [if_neg hroom]
    refine ⟨queue,h.frame _ _ _,hl.silent ?_⟩
    simp [Ledger.Silent,TxEvent.mapped?,TxEvent.unmapped?,TxEvent.completed?,TxEvent.consumed?,
      TxEvent.kfreed?,TxEvent.accepted?]

/-! ### The device -/

theorem fetch_silent (buf : TxBuf) (len : ℕ) (kmallocOk : Bool) :
    ∀ e ∈ fetch buf len kmallocOk, Ledger.Silent e := by
  intro e he
  rw [fetch] at he
  split at he
  · cases kmallocOk <;> simp at he <;> rcases he with rfl | rfl | rfl <;>
      exact ⟨rfl,rfl,rfl,rfl,rfl,rfl⟩
  · simp at he

theorem workerRound_ledger (h : Loaded a queue d) (hl : Ledger a.log gone queue d) {w : TxWorker}
    (hw : a.txWorker = some w) (hne : w.head ≠ w.tail) (kmallocOk : Bool) :
    Ledger (a.hwTxWorkerRound w kmallocOk).log gone queue (d+1) := by
  obtain ⟨hd,hbuf,-⟩ := h.worker_slot hw hne
  change Ledger (a.log ++ (fetch (a.txRing.buf w.head) _ _ ++ [.complete (a.txRing.buf w.head)])) _ _ _
  rw [← List.append_assoc,hbuf]
  exact (hl.silent (fetch_silent _ _ _)).complete hd

theorem workerEnd_ledger (hl : Ledger a.log gone queue d) (w : TxWorker) :
    Ledger (a.hwTxWorkerEnd w).log gone queue d := by
  rw [Adapter.hwTxWorkerEnd]
  split
  · refine hl.silent ?_
    simp [Ledger.Silent,TxEvent.mapped?,TxEvent.unmapped?,TxEvent.completed?,TxEvent.consumed?,
      TxEvent.kfreed?,TxEvent.accepted?]
  · exact hl

/-! ### Removal -/

/-- What freeing a slot does to the packet in it. -/
def freed (b : TxBuf) : List TxEvent :=
  match b.skb with
  | none => []
  | some skb => [.unmap b.dma b.len,.kfree skb]

theorem buf_freeSlot (a : Adapter) (i : ℕ) : (a.freeSlot i).txRing.buf =
    Function.update a.txRing.buf i { a.txRing.buf i with skb := none } := by
  cases hb : (a.txRing.buf i).skb with
  | none =>
    have hgo : a.freeSlot i = a := by simp only [Adapter.freeSlot,hb]
    have hsame : ({ a.txRing.buf i with skb := none } : TxBuf) = a.txRing.buf i := by rw [← hb]
    rw [hgo,hsame,Function.update_eq_self]
  | some skb => simp [Adapter.freeSlot,hb]

theorem log_freeSlot (a : Adapter) (i : ℕ) :
    (a.freeSlot i).log = a.log ++ freed (a.txRing.buf i) := by
  cases hb : (a.txRing.buf i).skb <;> simp [Adapter.freeSlot,freed,Adapter.note,hb]

/-- Freeing unmaps and frees, and nothing else. -/
theorem filterMap_freed {β : Type} {f : TxEvent → Option β}
    (hunmap : ∀ dma len, f (.unmap dma len) = none) (hkfree : ∀ skb, f (.kfree skb) = none)
    (b : TxBuf) : (freed b).filterMap f = [] := by
  unfold freed
  cases b.skb with
  | none => rfl
  | some skb => simp [hunmap,hkfree]

theorem unmapped_freed (bufs : List TxBuf) : unmapped (bufs.flatMap freed) =
    (bufs.filter (fun b => ¬ b.skb = none)).map TxBuf.mapping := by
  induction bufs with
  | nil => rfl
  | cons b bufs ih =>
    rw [List.flatMap_cons,unmapped_append,ih,freed]
    cases hb : b.skb with
    | none => simp [hb,unmapped]
    | some skb => simp [hb,unmapped,List.filterMap_cons,TxEvent.unmapped?,TxBuf.mapping]

theorem kfreed_freed (bufs : List TxBuf) : kfreed (bufs.flatMap freed) =
    (bufs.filter (fun b => ¬ b.skb = none)).filterMap TxBuf.skb := by
  induction bufs with
  | nil => rfl
  | cons b bufs ih =>
    rw [List.flatMap_cons,kfreed_append,ih,freed]
    cases hb : b.skb with
    | none => simp [hb,kfreed]
    | some skb => simp [hb,kfreed,List.filterMap_cons,TxEvent.kfreed?]

/-- The transmit path after its removal: every mapping has been given back with its own address
and length, and every packet reported as sent has been freed, each as often as it was made. -/
structure TxEnded (a : Adapter) : Prop where
  released : a.txRing.allocated = false
  empty : ∀ k, k < ringSize → (a.txRing.buf k).skb = none
  unmapped : (unmapped a.log).Perm ((mapped a.log).map TxBuf.mapping)
  freed : (accepted a.log).Perm (kfreed a.log ++ consumed a.log)

theorem Ledger.filterMap_gone {log : List TxEvent} (h : Ledger log gone queue d) :
    gone.filterMap TxBuf.skb = Edunic.consumed log := by
  have hmap := congrArg (List.filterMap id) h.consumed
  simpa [List.filterMap_map] using hmap.symm

theorem freeTxResources_spec (h : Loaded a queue d) (hl : Ledger a.log gone queue d) :
    TxEnded { a with workPending := false }.freeTxResources := by
  have hheld := h.slots.perm h.clean_lt h.room.le h.skbs
  obtain ⟨hlog,hcells⟩ := sweep_spec (fun a : Adapter => a.txRing.buf) Adapter.log freed
    (fun b => { b with skb := none }) buf_freeSlot log_freeSlot { a with workPending := false }
    ringSize
  unfold Adapter.freeTxResources
  rw [if_pos h.allocated]
  dsimp only at hlog hcells ⊢
  rw [h.count]
  generalize (List.range ringSize).map a.txRing.buf = bufs at hheld hlog
  generalize (List.range ringSize).foldl Adapter.freeSlot _ = b at hlog hcells ⊢
  have hmapped : mapped (bufs.flatMap freed) = [] :=
    filterMap_flatMap_nil (filterMap_freed (fun _ _ => rfl) fun _ => rfl) bufs
  have hconsumed : consumed (bufs.flatMap freed) = [] :=
    filterMap_flatMap_nil (filterMap_freed (fun _ _ => rfl) fun _ => rfl) bufs
  have haccepted : accepted (bufs.flatMap freed) = [] :=
    filterMap_flatMap_nil (filterMap_freed (fun _ _ => rfl) fun _ => rfl) bufs
  refine ⟨rfl,fun k hk => ?_,?_,?_⟩
  · have hcell := hcells k
    rw [if_pos hk] at hcell
    exact congrArg TxBuf.skb hcell
  · dsimp only
    rw [hlog,unmapped_append,unmapped_freed,hl.unmapped,mapped_append,hl.mapped,hmapped,
      List.append_nil,List.map_append]
    exact (hheld.map _).append_left _
  · dsimp only
    rw [hlog,accepted_append,kfreed_append,consumed_append,kfreed_freed,haccepted,hconsumed,
      List.append_nil,List.append_nil]
    refine hl.accepted.trans ?_
    rw [List.filterMap_append,hl.filterMap_gone,List.append_assoc]
    refine List.Perm.append_left _ ?_
    refine List.perm_append_comm.trans ?_
    exact (hheld.filterMap _).symm.append_right _

/-! ### Runs -/

/-- What a step is, by its label. -/
theorem txStep_cases {label : TxLabel} {b : Adapter} (h : a.txStep label = some b) :
    a.txRing.allocated = true ∧
      match label with
      | .xmit skb mapping => b = (a.startXmit skb mapping).1
      | .clean => ∃ n, a.cleanTxIrq = some (b,n)
      | .workerStart => a.txWorker = none ∧ b = a.hwTxWorkerStart
      | .workerRound ok => ∃ w, a.txWorker = some w ∧ w.head ≠ w.tail ∧ b = a.hwTxWorkerRound w ok
      | .workerEnd => ∃ w, a.txWorker = some w ∧ w.head = w.tail ∧ b = a.hwTxWorkerEnd w
      | .remove => a.txWorker = none ∧ b = { a with workPending := false }.freeTxResources := by
  by_cases halloc : a.txRing.allocated = true
  · refine ⟨halloc,?_⟩
    unfold Adapter.txStep at h
    rw [if_pos halloc] at h
    cases label with
    | xmit skb mapping => exact (Option.some.inj h).symm
    | clean =>
      obtain ⟨⟨c,n⟩,hc,rfl⟩ := Option.map_eq_some_iff.mp h
      exact ⟨n,hc⟩
    | workerStart =>
      cases hw : a.txWorker with
      | some w => simp [hw] at h
      | none =>
        simp only [hw,guarded_eq_some] at h
        exact ⟨rfl,h.2⟩
    | workerRound ok =>
      cases hw : a.txWorker with
      | none => simp [hw] at h
      | some w =>
        simp only [hw,guarded_eq_some] at h
        exact ⟨w,rfl,h.1,h.2⟩
    | workerEnd =>
      cases hw : a.txWorker with
      | none => simp [hw] at h
      | some w =>
        simp only [hw,guarded_eq_some] at h
        exact ⟨w,rfl,h.1,h.2⟩
    | remove =>
      cases hw : a.txWorker with
      | some w => simp [hw] at h
      | none =>
        simp only [hw,Option.some.injEq] at h
        exact ⟨rfl,h.symm⟩
  · unfold Adapter.txStep at h
    rw [if_neg halloc] at h
    contradiction

/-- The ring in use, or given back. -/
def TxInv (a : Adapter) : Prop :=
  (∃ gone queue d, Loaded a queue d ∧ Ledger a.log gone queue d) ∨ TxEnded a

theorem probed_inv (tdh tdt : ℕ) : TxInv (probed emptyTxRing tdh tdt) := by
  refine .inl ⟨[],[],0,⟨rfl,rfl,ringSize_pos,ringSize_pos,rfl,rfl,?_,by simp,le_rfl,?_,?_⟩,
    Ledger.empty⟩
  · exact Holds.empty fun _ _ => rfl
  · exact Holds.empty fun _ _ => done_cleared 0 0 0
  · exact .idle rfl (fun h => absurd h (lt_irrefl _))

/-- Every step of the transmit path keeps the queue. -/
theorem txStep_inv {label : TxLabel} {b : Adapter} (hi : TxInv a) (h : a.txStep label = some b) :
    TxInv b := by
  obtain ⟨halloc,hstep⟩ := txStep_cases h
  rcases hi with ⟨gone,queue,d,hload,hl⟩ | hended
  · cases label with
    | xmit skb mapping =>
      rw [hstep]
      obtain ⟨queue',hload,hl⟩ := startXmit_spec hload hl skb mapping
      exact .inl ⟨gone,queue',d,hload,hl⟩
    | clean =>
      obtain ⟨n,hclean⟩ := hstep
      obtain ⟨c,hc,hload,hl,-⟩ := cleanTxIrq_spec hload hl
      obtain ⟨rfl,-⟩ := Prod.mk.inj (Option.some.inj (hclean.symm.trans hc))
      exact .inl ⟨_,_,_,hload,hl⟩
    | workerStart =>
      obtain ⟨hw,rfl⟩ := hstep
      exact .inl ⟨gone,queue,d,hload.workerStart hw,hl⟩
    | workerRound ok =>
      obtain ⟨w,hw,hne,rfl⟩ := hstep
      exact .inl ⟨gone,queue,d+1,hload.workerRound hw hne ok,workerRound_ledger hload hl hw hne ok⟩
    | workerEnd =>
      obtain ⟨w,hw,heq,rfl⟩ := hstep
      exact .inl ⟨gone,queue,d,hload.workerEnd hw heq,workerEnd_ledger hl w⟩
    | remove =>
      obtain ⟨hw,rfl⟩ := hstep
      exact .inr (freeTxResources_spec hload hl)
  · rw [hended.released] at halloc
    contradiction

theorem txPath_inv (h : txPath.Reachable a) : TxInv a := by
  have hstep : ∀ s label t, txPath.Reachable s → TxInv s → True → txPath.step s label = some t →
      TxInv t := fun _ _ _ _ hi _ hstep => txStep_inv hi hstep
  refine h.invariant ?_ hstep
  rintro s ⟨descOk,bufOk,ring,tdh,tdt,hring,rfl⟩
  rw [setupTxResources] at hring
  split at hring
  · split at hring
    · obtain rfl := Option.some.inj hring
      exact probed_inv tdh tdt
    · contradiction
  · contradiction

end NetLab.Edunic
