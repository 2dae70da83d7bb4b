import Mathlib
import NetLab.Foundation.Sweep
import NetLab.Edunic.RxRing
import NetLab.Edunic.TxPath

/-! The receive path as a queue of buffers in a ring: first those with a frame that the driver
has not harvested yet, then those that wait for one. The device may use the first of the
waiting ones, up to RDT. -/
namespace NetLab.Edunic
open NetLab.Ring

/-! ### What the log says -/

namespace RxEvent

def alloc? : RxEvent → Option ℕ
  | .alloc skb => some skb.id
  | _ => none

/-- A buffer leaves the driver: it is freed, or handed to the stack. -/
def gone? : RxEvent → Option ℕ
  | .kfree skb => some skb.id
  | .gro skb _ => some skb.id
  | _ => none

def mapped? : RxEvent → Option (ℕ × UInt64)
  | .map skb dma => some (skb.id,dma)
  | _ => none

def unmapped? : RxEvent → Option (UInt64 × ℕ)
  | .unmap dma len => some (dma,len)
  | _ => none

def received? : RxEvent → Option (List UInt8)
  | .received frame => some frame
  | _ => none

def dropped? : RxEvent → Option (List UInt8)
  | .dropped frame => some frame
  | _ => none

/-- The frame of a packet handed to the stack. -/
def handed? : RxEvent → Option (List UInt8)
  | .gro skb _ => some skb.data
  | _ => none

/-- An allocation or a mapping has failed. -/
def failure : RxEvent → Bool
  | .allocFailed | .mapFailed => true
  | _ => false

end RxEvent

/-- The driver takes a buffer from the allocator, lends it to the device by a mapping and lets
go of it with the frame in it; a mapping goes back with its address and EDUNIC_RX_BUF_SIZE. -/
def rxCustody : Custody RxEvent ℕ (ℕ × UInt64) (UInt64 × ℕ) where
  taken := RxEvent.alloc?
  freed := RxEvent.gone?
  lent := RxEvent.mapped?
  returned := RxEvent.unmapped?
  owner := Prod.fst
  mapping := fun loan => (loan.2,rxBufSize)

/-! ### The ring -/

/-- Descriptor and buffer of one number. -/
abbrev RxSlot := RxDesc × RxBuf

def RxRing.slot (r : RxRing) (k : ℕ) : RxSlot := (r.desc k,r.buf k)

/-- A slot without a buffer, and not done. -/
def Vacant (x : RxSlot) : Prop := x.2.skb = none ∧ x.1.done = false

/-- A buffer that waits for a frame. -/
structure Waiting where
  skb : SkBuff
  dma : UInt64

/-- A buffer with a frame that fits it. -/
structure Filled extends Waiting where
  frame : List UInt8
  fits : frame.length ≤ rxBufSize

def Waiting.loan (e : Waiting) : ℕ × UInt64 := (e.skb.id,e.dma)
def Waiting.slot (e : Waiting) : RxSlot := (⟨e.dma,0,0,0⟩,⟨some e.skb,e.dma,rxBufSize⟩)

def Filled.loan (f : Filled) : ℕ × UInt64 := f.toWaiting.loan
def Filled.slot (f : Filled) : RxSlot :=
  (⟨f.dma,UInt16.ofNat f.frame.length,rxdDelivered,0⟩,⟨some (f.skb.write f.frame),f.dma,rxBufSize⟩)

/-- What the ring holds. -/
def held (filled : List Filled) (waiting : List Waiting) : List RxSlot :=
  filled.map Filled.slot ++ waiting.map Waiting.slot

def loans (filled : List Filled) (waiting : List Waiting) : List (ℕ × UInt64) :=
  filled.map Filled.loan ++ waiting.map Waiting.loan

/-- From slot `c` on the ring holds `filled` and then `waiting`; the device may use the first
`shown` of the waiting ones. -/
structure RxLoaded (a : RxAdapter) (c : ℕ) (filled : List Filled) (waiting : List Waiting)
    (shown : ℕ) : Prop where
  allocated : a.rxRing.allocated = true
  count : a.rxRing.count = ringSize
  start_lt : c < ringSize
  clean_lt : a.rxRing.nextToClean < ringSize
  room : filled.length+waiting.length < ringSize
  shown_le : shown ≤ waiting.length
  head : a.rdh = cell ringSize c filled.length
  tail : a.rdt = cell ringSize c (filled.length+shown)
  use : a.rxRing.nextToUse = a.rdt
  slots : Holds ringSize Vacant a.rxRing.slot c (held filled waiting)

@[simp] theorem held_length (filled : List Filled) (waiting : List Waiting) :
    (held filled waiting).length = filled.length+waiting.length := by
  simp [held]

@[simp] theorem slot_setSlot (r : RxRing) (i : ℕ) (desc : RxDesc) (buf : RxBuf) :
    (r.setSlot i desc buf).slot = Function.update r.slot i (desc,buf) := by
  funext k
  by_cases hk : k = i
  · subst hk
    simp [RxRing.slot,RxRing.setSlot]
  · simp [RxRing.slot,RxRing.setSlot,hk]

@[simp] theorem RxDesc.done_delivered (addr : UInt64) (len : UInt16) :
    RxDesc.done ⟨addr,len,rxdDelivered,0⟩ = true := by
  change (rxdDelivered &&& rxdStatDD != 0) = true
  decide

@[simp] theorem RxDesc.done_cleared (addr : UInt64) (len : UInt16) (errors : UInt8) :
    RxDesc.done ⟨addr,len,0,errors⟩ = false := by
  change ((0 : UInt8) &&& rxdStatDD != 0) = false
  decide

@[simp] theorem RxDesc.sound_delivered (addr : UInt64) (len : UInt16) :
    RxDesc.faulty ⟨addr,len,rxdDelivered,0⟩ = false := by
  change ((0 : UInt8) &&& rxdErrRxe != 0) = false
  decide

/-- What was written is what skb_put shows. -/
theorem SkBuff.put_write (skb : SkBuff) (frame : List UInt8) :
    (skb.write frame).put frame.length = ⟨skb.id,frame⟩ := by
  simp [SkBuff.write,SkBuff.put]

variable {a b : RxAdapter} {c shown : ℕ} {filled : List Filled} {waiting : List Waiting}

theorem held_skb : ∀ x ∈ held filled waiting, ¬ x.2.skb = none := by
  intro x hx
  rcases List.mem_append.mp hx with hx | hx
  · obtain ⟨f,-,rfl⟩ := List.mem_map.mp hx
    simp [Filled.slot]
  · obtain ⟨e,-,rfl⟩ := List.mem_map.mp hx
    simp [Waiting.slot]

namespace RxLoaded

/-- Equal registers mean that the device has no buffer. -/
theorem no_buffer_iff (h : RxLoaded a c filled waiting shown) : a.rdh = a.rdt ↔ shown = 0 := by
  have hroom := h.room
  have hshown := h.shown_le
  rw [h.head,h.tail,cell_inj (by omega) (by omega)]
  omega

/-- Where the device writes there is a buffer that waits. -/
theorem at_head {e : Waiting} (h : RxLoaded a c filled (e::waiting) shown) :
    a.rxRing.slot a.rdh = e.slot := by
  have hlt : filled.length < (held filled (e::waiting)).length := by simp
  have hitem := h.slots.item filled.length hlt
  rw [← h.head] at hitem
  rw [hitem]
  simp [held]

theorem at_front {f : Filled} (h : RxLoaded a c (f::filled) waiting shown) :
    a.rxRing.slot c = f.slot := h.slots.front h.start_lt

/-- The device fills the first buffer that waits. -/
theorem deliver {e : Waiting} (h : RxLoaded a c filled (e::waiting) (shown+1))
    (frame : List UInt8) : ∃ f : Filled, f.toWaiting = e ∧ f.frame = frame.take rxBufSize ∧
      RxLoaded (a.hwDeliverRxFrame frame) c (filled++[f]) waiting shown ∧
      (a.hwDeliverRxFrame frame).log = a.log ++ [.received f.frame] := by
  have hne : ¬ a.rdh = a.rdt := by
    rw [h.no_buffer_iff]
    exact Nat.succ_ne_zero shown
  have hroom := h.room
  have hshown := h.shown_le
  rw [List.length_cons] at hroom hshown
  have hslot := h.at_head
  have hdesc : a.rxRing.desc a.rdh = ⟨e.dma,0,0,0⟩ := congrArg Prod.fst hslot
  have hbuf : a.rxRing.buf a.rdh = ⟨some e.skb,e.dma,rxBufSize⟩ := congrArg Prod.snd hslot
  have hclamp : (if rxBufSize < frame.length then frame.take rxBufSize else frame) =
      frame.take rxBufSize := by
    by_cases hlong : rxBufSize < frame.length
    · rw [if_pos hlong]
    · rw [if_neg hlong,List.take_of_length_le (by omega)]
  have hgo : a.hwDeliverRxFrame frame =
      { a.note [.received (frame.take rxBufSize)] with
        rxRing := a.rxRing.setSlot a.rdh
          ⟨e.dma,UInt16.ofNat (frame.take rxBufSize).length,rxdDelivered,0⟩
          ⟨some (e.skb.write (frame.take rxBufSize)),e.dma,rxBufSize⟩
        rdh := next a.rdh } := by
    unfold RxAdapter.hwDeliverRxFrame
    rw [if_neg hne]
    simp only [hdesc,hbuf,hclamp,Option.map_some]
  refine ⟨⟨e,frame.take rxBufSize,by simp⟩,rfl,rfl,?_,by rw [hgo]; rfl⟩
  rw [hgo]
  refine ⟨h.allocated,h.count,h.start_lt,h.clean_lt,?_,by omega,?_,?_,h.use,?_⟩
  · rw [List.length_append,List.length_singleton]
    omega
  · change next a.rdh = _
    rw [h.head,next_cell,List.length_append,List.length_singleton]
  · rw [List.length_append,List.length_singleton,Nat.add_assoc,Nat.add_comm 1 shown]
    exact h.tail
  · have hset := h.slots.set (by rw [held_length,List.length_cons]; omega)
      (show filled.length < (held filled (e::waiting)).length by simp)
      (Filled.slot ⟨e,frame.take rxBufSize,by simp⟩)
    rw [← h.head] at hset
    change Holds _ _ (RxRing.slot (RxRing.setSlot _ _ _ _)) _ _
    rw [slot_setSlot]
    have hlist : (held filled (e::waiting)).set filled.length
        (Filled.slot ⟨e,frame.take rxBufSize,by simp⟩) =
        held (filled++[⟨e,frame.take rxBufSize,by simp⟩]) waiting := by
      simp [held]
    rw [← hlist]
    exact hset

/-- Without a buffer the frame is dropped. -/
theorem drop (h : RxLoaded a c filled waiting 0) (frame : List UInt8) :
    a.hwDeliverRxFrame frame = { a.note [.dropped frame] with
      stats := { a.stats with rxDropped := a.stats.rxDropped+1 } } :=
  if_pos (h.no_buffer_iff.mpr rfl)

/-- A step that touches the counters, the log and the driver's own locals only. -/
theorem frame (h : RxLoaded a c filled waiting shown) (stats : RxStats) (driver : RxDriver)
    (log : List RxEvent) : RxLoaded { a with stats, driver, log } c filled waiting shown :=
  ⟨h.allocated,h.count,h.start_lt,h.clean_lt,h.room,h.shown_le,h.head,h.tail,h.use,h.slots⟩

/-- The driver harvests the first frame: its slot is vacant and the packet goes to the stack. -/
theorem harvest {f : Filled} (h : RxLoaded a c (f::filled) waiting shown) (workDone cleaned : ℕ)
    (budget : ℤ) :
    RxLoaded (a.harvest c workDone cleaned budget) (cell ringSize c 1) filled waiting shown ∧
      (a.harvest c workDone cleaned budget).log =
        a.log ++ [.unmap f.dma rxBufSize,.gro ⟨f.skb.id,f.frame⟩ true] ∧
      (a.harvest c workDone cleaned budget).stats = { a.stats with
        rxPackets := a.stats.rxPackets+1
        rxBytes := a.stats.rxBytes+UInt64.ofNat f.frame.length } := by
  have hslot := h.at_front
  have hdesc : a.rxRing.desc c = ⟨f.dma,UInt16.ofNat f.frame.length,rxdDelivered,0⟩ :=
    congrArg Prod.fst hslot
  have hbuf : a.rxRing.buf c = ⟨some (f.skb.write f.frame),f.dma,rxBufSize⟩ :=
    congrArg Prod.snd hslot
  have hlen : (UInt16.ofNat f.frame.length).toNat = f.frame.length := by
    have hfits := f.fits
    rw [rxBufSize] at hfits
    exact Nat.mod_eq_of_lt (by omega)
  have hsum : RxDesc.csumValid ⟨f.dma,UInt16.ofNat f.frame.length,rxdDelivered,0⟩ = true := by
    change (rxdDelivered &&& rxdStatCsumValid != 0) = true
    decide
  have hroom := h.room
  have hshown := h.shown_le
  rw [List.length_cons] at hroom
  have hgo : a.harvest c workDone cleaned budget =
      { a.note [.unmap f.dma rxBufSize,.gro ⟨f.skb.id,f.frame⟩ true] with
        stats := { a.stats with
          rxPackets := a.stats.rxPackets+1
          rxBytes := a.stats.rxBytes+UInt64.ofNat f.frame.length }
        rxRing := a.rxRing.setSlot c ⟨f.dma,UInt16.ofNat f.frame.length,0,0⟩ ⟨none,0,rxBufSize⟩
        driver := .harvesting (next c) (workDone+1) ((cleaned+1) % 65536) budget } := by
    unfold RxAdapter.harvest
    simp only [hdesc,hbuf,RxDesc.sound_delivered,hlen,hsum,Option.map_some,Option.toList_some,
      SkBuff.put_write,Bool.false_eq_true,if_false]
    simp only [RxAdapter.note,List.append_assoc,List.cons_append,List.nil_append]
  have hcell : ∀ j, cell ringSize c (j+1) = cell ringSize (cell ringSize c 1) j := by
    intro j
    rw [cell_cell,Nat.add_comm]
  rw [hgo]
  refine ⟨⟨h.allocated,h.count,cell_lt ringSize_pos,h.clean_lt,by omega,hshown,?_,?_,h.use,?_⟩,rfl,rfl⟩
  · rw [← hcell]
    exact h.head
  · rw [← hcell,Nat.add_right_comm]
    exact h.tail
  · change Holds _ _ (RxRing.slot (RxRing.setSlot _ _ _ _)) _ _
    rw [slot_setSlot]
    exact h.slots.pop h.start_lt (by simpa using Nat.lt_of_succ_lt (by omega))
      ⟨rfl,RxDesc.done_cleared _ _ _⟩

/-- A fresh buffer is posted behind the others. -/
theorem post (h : RxLoaded a c filled waiting shown)
    (hroom : filled.length+waiting.length+1 < ringSize) {i : ℕ}
    (hi : i = cell ringSize c (filled.length+waiting.length)) (left posted : ℕ)
    (caller : RxCaller) (skb : SkBuff) (dma : UInt64) :
    RxLoaded (a.refill i left posted caller (some skb) (some dma)) c filled
      (waiting++[⟨skb,dma⟩]) shown := by
  have hshown := h.shown_le
  refine ⟨h.allocated,h.count,h.start_lt,h.clean_lt,?_,?_,h.head,h.tail,h.use,?_⟩
  · rw [List.length_append,List.length_singleton]
    omega
  · rw [List.length_append]
    omega
  · have hpush := h.slots.push (by rw [held_length]; exact h.room) (Waiting.slot ⟨skb,dma⟩)
    rw [held_length,← hi] at hpush
    have hlist : held filled waiting ++ [Waiting.slot ⟨skb,dma⟩] =
        held filled (waiting++[⟨skb,dma⟩]) := by
      simp [held]
    rw [hlist] at hpush
    change Holds _ _ (RxRing.slot (RxRing.setSlot _ _ _ _)) _ _
    rw [slot_setSlot]
    exact hpush

/-- The doorbell shows the device every buffer that waits. -/
theorem announce (h : RxLoaded a c filled waiting shown) {i posted : ℕ}
    (hi : i = cell ringSize c (filled.length+waiting.length))
    (hposted : waiting.length = shown+posted) (caller : RxCaller) :
    RxLoaded (a.announce i posted caller) c filled waiting waiting.length := by
  have hrung : RxLoaded (if posted ≠ 0 then
      { a with rxRing := { a.rxRing with nextToUse := i }, rdt := i } else a) c filled waiting
      waiting.length := by
    by_cases hp : posted ≠ 0
    · rw [if_pos hp]
      exact ⟨h.allocated,h.count,h.start_lt,h.clean_lt,h.room,le_rfl,h.head,hi,rfl,h.slots⟩
    · rw [if_neg hp]
      have he : waiting.length = shown := by omega
      rw [he]
      exact h
  unfold RxAdapter.announce
  cases caller with
  | probe => exact hrung.frame _ _ _
  | clean workDone => exact hrung.frame _ _ _

end RxLoaded

/-! ### Where the driver is -/

/-- What the driver's locals say when slots are in use from `c` on, `n` of them, the last
`fresh` not yet shown to the device, and when failed allocations have cost `missed` slots. -/
def RxAdapter.At (a : RxAdapter) (c n fresh missed : ℕ) : Prop :=
  match a.driver with
  | .idle _ | .failed => c = a.rxRing.nextToClean ∧ fresh = 0 ∧ n+missed = ringSize-1
  | .harvesting i workDone cleanedCount _ =>
    i = c ∧ c = cell ringSize a.rxRing.nextToClean cleanedCount ∧ workDone = cleanedCount ∧
      fresh = 0 ∧ n+cleanedCount+missed = ringSize-1
  | .refilling i left posted _ =>
    c = a.rxRing.nextToClean ∧ i = cell ringSize c n ∧ fresh = posted ∧
      n+left+missed = ringSize-1
  | .broken i posted _ =>
    c = a.rxRing.nextToClean ∧ i = cell ringSize c n ∧ fresh = posted ∧ n+missed = ringSize-1 ∧
      missed ≠ 0

/-! ### The log and the counters -/

def receivedIn (log : List RxEvent) : List (List UInt8) := log.filterMap RxEvent.received?
def droppedIn (log : List RxEvent) : List (List UInt8) := log.filterMap RxEvent.dropped?

/-- The frames passed to napi_gro_receive. -/
def handedUp (log : List RxEvent) : List (List UInt8) := log.filterMap RxEvent.handed?

/-- No allocation and no mapping has failed. -/
def Flawless (log : List RxEvent) : Prop := ∀ e ∈ log, e.failure = false

/-- What the log says of buffers, frames and counters: the buffers of `gone` have left, those in
the ring are lent, the frames received are those handed up and those in the ring. -/
structure Carried (a : RxAdapter) (filled : List Filled) (waiting : List Waiting)
    (gone : List (ℕ × UInt64)) : Prop where
  ledger : rxCustody.Ledger a.log gone (loans filled waiting)
  order : receivedIn a.log = handedUp a.log ++ filled.map Filled.frame
  packets : a.stats.rxPackets = UInt64.ofNat (handedUp a.log).length
  bytes : a.stats.rxBytes = UInt64.ofNat ((handedUp a.log).map List.length).sum
  dropped : a.stats.rxDropped = UInt64.ofNat (droppedIn a.log).length
  errors : a.stats.rxErrors = 0

theorem flawless_append (log es : List RxEvent) :
    Flawless (log++es) ↔ Flawless log ∧ Flawless es := List.forall_mem_append

namespace Carried

variable {gone : List (ℕ × UInt64)}

/-- Steps that neither log anything nor count anything. -/
theorem frame (h : Carried a filled waiting gone) (hlog : b.log = a.log) (hstats : b.stats = a.stats) :
    Carried b filled waiting gone := by
  obtain ⟨hledger,horder,hpackets,hbytes,hdropped,herrors⟩ := h
  rw [← hlog] at hledger horder hpackets hbytes hdropped
  rw [← hstats] at hpackets hbytes hdropped herrors
  exact ⟨hledger,horder,hpackets,hbytes,hdropped,herrors⟩

/-- Entries about buffers that are neither filled nor handed up. -/
theorem note {waiting' : List Waiting} {es : List RxEvent} (h : Carried a filled waiting gone)
    (hlog : b.log = a.log ++ es) (hstats : b.stats = a.stats)
    (hledger : rxCustody.Ledger (a.log++es) gone (loans filled waiting'))
    (hreceived : receivedIn es = []) (hdropped : droppedIn es = []) (hhanded : handedUp es = []) :
    Carried b filled waiting' gone := by
  have hr : receivedIn b.log = receivedIn a.log := by
    rw [hlog,receivedIn,List.filterMap_append]
    exact (congrArg _ hreceived).trans (List.append_nil _)
  have hd : droppedIn b.log = droppedIn a.log := by
    rw [hlog,droppedIn,List.filterMap_append]
    exact (congrArg _ hdropped).trans (List.append_nil _)
  have hh : handedUp b.log = handedUp a.log := by
    rw [hlog,handedUp,List.filterMap_append]
    exact (congrArg _ hhanded).trans (List.append_nil _)
  refine ⟨by rw [hlog]; exact hledger,?_,?_,?_,?_,?_⟩
  · rw [hr,hh]
    exact h.order
  · rw [hstats,hh]
    exact h.packets
  · rw [hstats,hh]
    exact h.bytes
  · rw [hstats,hd]
    exact h.dropped
  · rw [hstats]
    exact h.errors

/-- A frame comes into the first buffer that waits. -/
theorem receive {f : Filled} (h : Carried a filled (f.toWaiting::waiting) gone)
    (hlog : b.log = a.log ++ [.received f.frame]) (hstats : b.stats = a.stats) :
    Carried b (filled++[f]) waiting gone := by
  have hloans : loans (filled++[f]) waiting = loans filled (f.toWaiting::waiting) := by
    simp [loans,Filled.loan]
  have hh : handedUp b.log = handedUp a.log := by
    rw [hlog,handedUp,List.filterMap_append]
    exact List.append_nil _
  have hd : droppedIn b.log = droppedIn a.log := by
    rw [hlog,droppedIn,List.filterMap_append]
    exact List.append_nil _
  refine ⟨?_,?_,?_,?_,?_,?_⟩
  · rw [hlog,hloans]
    exact h.ledger.silent rfl rfl rfl rfl
  · rw [hh,hlog,receivedIn,List.filterMap_append,List.map_append,← List.append_assoc,← h.order]
    rfl
  · rw [hstats,hh]
    exact h.packets
  · rw [hstats,hh]
    exact h.bytes
  · rw [hstats,hd]
    exact h.dropped
  · rw [hstats]
    exact h.errors

/-- A frame finds no buffer. -/
theorem drop {frame : List UInt8} (h : Carried a filled waiting gone)
    (hlog : b.log = a.log ++ [.dropped frame])
    (hstats : b.stats = { a.stats with rxDropped := a.stats.rxDropped+1 }) :
    Carried b filled waiting gone := by
  have hh : handedUp b.log = handedUp a.log := by
    rw [hlog,handedUp,List.filterMap_append]
    exact List.append_nil _
  have hr : receivedIn b.log = receivedIn a.log := by
    rw [hlog,receivedIn,List.filterMap_append]
    exact List.append_nil _
  refine ⟨?_,?_,?_,?_,?_,?_⟩
  · rw [hlog]
    exact h.ledger.silent rfl rfl rfl rfl
  · rw [hr,hh]
    exact h.order
  · rw [hstats,hh]
    exact h.packets
  · rw [hstats,hh]
    exact h.bytes
  · rw [hstats,hlog,droppedIn,List.filterMap_append,List.length_append,UInt64.ofNat_add]
    exact congrArg (· + 1) h.dropped
  · rw [hstats]
    exact h.errors

/-- The first frame goes to the stack, and its buffer with it. -/
theorem handUp {f : Filled} (h : Carried a (f::filled) waiting gone)
    (hlog : b.log = a.log ++ [.unmap f.dma rxBufSize,.gro ⟨f.skb.id,f.frame⟩ true])
    (hstats : b.stats = { a.stats with
      rxPackets := a.stats.rxPackets+1
      rxBytes := a.stats.rxBytes+UInt64.ofNat f.frame.length }) :
    Carried b filled waiting (gone++[f.loan]) := by
  have hh : handedUp b.log = handedUp a.log ++ [f.frame] := by
    rw [hlog,handedUp,List.filterMap_append]
    rfl
  have hr : receivedIn b.log = receivedIn a.log := by
    rw [hlog,receivedIn,List.filterMap_append]
    exact List.append_nil _
  have hd : droppedIn b.log = droppedIn a.log := by
    rw [hlog,droppedIn,List.filterMap_append]
    exact List.append_nil _
  refine ⟨?_,?_,?_,?_,?_,?_⟩
  · rw [hlog]
    exact Custody.Ledger.release h.ledger rfl rfl rfl rfl
  · rw [hr,hh,h.order,List.append_assoc]
    rfl
  · rw [hstats,hh,List.length_append,UInt64.ofNat_add]
    exact congrArg (· + 1) h.packets
  · rw [hstats,hh,List.map_append,List.sum_append,UInt64.ofNat_add]
    exact congrArg (· + UInt64.ofNat f.frame.length) h.bytes
  · rw [hstats,hd]
    exact h.dropped
  · rw [hstats]
    exact h.errors

end Carried

/-! ### Removal -/

/-- What edunic_free_rx_resources does to the buffer of a slot. -/
def rxFreed (x : RxSlot) : List RxEvent :=
  match x.2.skb with
  | none => []
  | some skb => [.unmap x.2.dma x.2.len,.kfree skb]

/-- What it leaves of the slot. -/
def emptied (x : RxSlot) : RxSlot := (x.1,{ x.2 with skb := none })

theorem slot_freeSlot (a : RxAdapter) (i : ℕ) : (a.freeSlot i).rxRing.slot =
    Function.update a.rxRing.slot i (emptied (a.rxRing.slot i)) := by
  funext k
  cases hs : (a.rxRing.buf i).skb with
  | none =>
    have hgo : a.freeSlot i = a := by simp only [RxAdapter.freeSlot,hs]
    rw [hgo]
    by_cases hk : k = i
    · subst hk
      simp [RxRing.slot,emptied,← hs]
    · simp [hk]
  | some skb =>
    have hgo : (a.freeSlot i).rxRing = { a.rxRing with
        buf := Function.update a.rxRing.buf i { a.rxRing.buf i with skb := none } } := by
      simp only [RxAdapter.freeSlot,hs]
    rw [hgo]
    by_cases hk : k = i
    · subst hk
      simp [RxRing.slot,emptied]
    · simp [RxRing.slot,hk]

theorem log_freeRxSlot (a : RxAdapter) (i : ℕ) :
    (a.freeSlot i).log = a.log ++ rxFreed (a.rxRing.slot i) := by
  cases hs : (a.rxRing.buf i).skb <;>
    simp [RxAdapter.freeSlot,rxFreed,RxRing.slot,RxAdapter.note,hs]

theorem rxFreed_silent {β : Type} {f : RxEvent → Option β} (hunmap : ∀ dma len, f (.unmap dma len) = none)
    (hkfree : ∀ skb, f (.kfree skb) = none) (x : RxSlot) : (rxFreed x).filterMap f = [] := by
  unfold rxFreed
  cases x.2.skb with
  | none => rfl
  | some skb => simp [hunmap,hkfree]

/-- What the buffers in the ring give back and let go of. -/
theorem rxFreed_held (filled : List Filled) (waiting : List Waiting) :
    ((held filled waiting).flatMap rxFreed).filterMap RxEvent.gone? =
      (loans filled waiting).map Prod.fst ∧
    ((held filled waiting).flatMap rxFreed).filterMap RxEvent.unmapped? =
      (loans filled waiting).map (fun loan => (loan.2,rxBufSize)) := by
  induction filled with
  | nil =>
    induction waiting with
    | nil => exact ⟨rfl,rfl⟩
    | cons e waiting ih =>
      simp only [held,loans,List.map_nil,List.nil_append] at ih
      simp only [held,loans,List.map_nil,List.nil_append,List.map_cons,List.flatMap_cons,
        List.filterMap_append,ih.1,ih.2]
      exact ⟨rfl,rfl⟩
  | cons f filled ih =>
    simp only [held,loans,List.map_cons,List.cons_append,List.flatMap_cons,List.filterMap_append]
      at ih ⊢
    rw [ih.1,ih.2]
    exact ⟨rfl,rfl⟩

/-- After the removal: the ring is gone, no slot holds a buffer, every mapping has been given
back and every buffer freed or handed up, once each. -/
structure RxEnded (a : RxAdapter) : Prop where
  released : a.rxRing.allocated = false
  empty : ∀ k, k < ringSize → (a.rxRing.buf k).skb = none
  settled : rxCustody.Settled a.log

theorem RxLoaded.remove {gone : List (ℕ × UInt64)} (h : RxLoaded a c filled waiting shown)
    (hc : Carried a filled waiting gone) : RxEnded a.freeRxResources := by
  have hempty : Holds ringSize (fun x : RxSlot => x.2.skb = none) a.rxRing.slot c
      (held filled waiting) := h.slots.mono fun _ hx => hx.1
  have hblank : ∀ x : RxSlot, x.2.skb = none → rxFreed x = [] := by
    intro x hx
    rw [rxFreed,hx]
  obtain ⟨hgone,hunmapped⟩ := rxFreed_held filled waiting
  have hsettled := hc.ledger.sweep hempty h.start_lt (by rw [held_length]; exact h.room.le) held_skb
    hblank (rxFreed_silent (fun _ _ => rfl) fun _ => rfl)
    (rxFreed_silent (fun _ _ => rfl) fun _ => rfl) hgone hunmapped
  obtain ⟨hlog,hcells⟩ := sweep_spec (fun a : RxAdapter => a.rxRing.slot) RxAdapter.log rxFreed
    emptied slot_freeSlot log_freeRxSlot a a.rxRing.count
  rw [h.count] at hlog hcells
  unfold RxAdapter.freeRxResources
  rw [if_pos h.allocated,h.count]
  generalize (List.range ringSize).foldl RxAdapter.freeSlot a = b at hlog hcells ⊢
  refine ⟨rfl,fun k hk => ?_,?_⟩
  · have hslot := hcells k
    rw [if_pos hk] at hslot
    exact congrArg (fun x : RxSlot => x.2.skb) hslot
  · change rxCustody.Settled b.log
    rw [hlog]
    exact hsettled

end NetLab.Edunic
