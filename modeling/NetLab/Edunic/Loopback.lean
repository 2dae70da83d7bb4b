import Mathlib
import NetLab.Edunic.CardRuns
import NetLab.Edunic.RxSound

/-! The loopback from end to end: what the stack gives to edunic_start_xmit comes back through
napi_gro_receive, exactly once and in order, but for the frames that found no receive buffer. -/
namespace NetLab.Edunic
open NetLab.Ring

/-- A frame the device has offered to the receive ring, and whether there was a buffer for it. -/
def RxEvent.outcome? : RxEvent → Option (List UInt8 × Bool)
  | .received frame => some (frame,true)
  | .dropped frame => some (frame,false)
  | _ => none

/-- The frames offered to the receive ring, in order. -/
def outcomes (log : List RxEvent) : List (List UInt8 × Bool) := log.filterMap RxEvent.outcome?

/-- The bytes of a packet in the transmit ring. -/
def TxBuf.frame (buf : TxBuf) : List UInt8 := (buf.skb.map SkBuff.data).getD []

/-- The frames the worker has completed, in order. -/
def completedFrames (log : List TxEvent) : List (List UInt8) := (completed log).map TxBuf.frame

/-- The frame a done slot holds. -/
def slotFrame (x : RxSlot) : List UInt8 :=
  ((x.2.skb.map SkBuff.data).getD []).take x.1.length.toNat

/-- The frames in the slots that are done and not harvested yet, in ring order. -/
def RxAdapter.unharvested (a : RxAdapter) : List (List UInt8) :=
  ((window ringSize a.rxRing.slot a.front ringSize).filter (fun x => x.1.done)).map slotFrame

/-- What is assumed of a step: DMA addresses are not zero, frames have 1 to 2048 bytes, and the
worker gets the memory for its copy. -/
def Card.Loops (_ : Card) : CardLabel → Prop
  | .xmit skb (some dma) => dma ≠ 0 ∧ 0 < skb.len ∧ skb.len ≤ 2048
  | .workerRound kmallocOk => kmallocOk = true
  | _ => True

instance (c : Card) (label : CardLabel) : Decidable (c.Loops label) :=
  match label with
  | .xmit _ (some _) => inferInstanceAs (Decidable (_ ∧ _ ∧ _))
  | .workerRound _ => inferInstanceAs (Decidable (_ = _))
  | .xmit _ none => .isTrue trivial
  | .register => .isTrue trivial
  | .ndoOpen => .isTrue trivial
  | .ndoStop => .isTrue trivial
  | .ndo _ => .isTrue trivial
  | .workerStart => .isTrue trivial
  | .workerEnd => .isTrue trivial
  | .interrupt => .isTrue trivial
  | .linkTimer => .isTrue trivial
  | .napiPoll _ => .isTrue trivial
  | .poll => .isTrue trivial
  | .receive _ => .isTrue trivial
  | .unmask => .isTrue trivial

variable {c d : Card} {a b : Adapter}

/-! ### The logs -/

@[simp] theorem outcomes_append (xs ys : List RxEvent) : outcomes (xs++ys) = outcomes xs ++ outcomes ys :=
  List.filterMap_append

@[simp] theorem completedFrames_append (xs ys : List TxEvent) :
    completedFrames (xs++ys) = completedFrames xs ++ completedFrames ys := by
  simp [completedFrames]

/-- The frames received are the outcomes that were kept. -/
theorem kept_outcomes (log : List RxEvent) :
    ((outcomes log).filter Prod.snd).map Prod.fst = receivedIn log := by
  induction log with
  | nil => rfl
  | cons e log ih =>
    rw [receivedIn] at ih ⊢
    cases e with
    | received frame => exact congrArg (frame :: ·) ih
    | _ => exact ih

theorem lost_outcomes (log : List RxEvent) :
    ((outcomes log).filter (fun x => !x.2)).map Prod.fst = droppedIn log := by
  induction log with
  | nil => rfl
  | cons e log ih =>
    rw [droppedIn] at ih ⊢
    cases e with
    | dropped frame => exact congrArg (frame :: ·) ih
    | _ => exact ih

/-- Nothing the driver does completes a frame. -/
theorem completedFrames_silent (log : List TxEvent) {es : List TxEvent}
    (hes : ∀ e ∈ es, e.completed? = none) : completedFrames (log++es) = completedFrames log := by
  have hnil : completed es = [] := List.filterMap_eq_nil_iff.mpr hes
  rw [completedFrames_append]
  nth_rewrite 2 [completedFrames]
  rw [hnil]
  exact List.append_nil _

/-! ### Packets that can be looped back -/

/-- A packet and its descriptor the worker copies whole. -/
def Loopable (desc : TxDesc) (buf : TxBuf) : Prop :=
  ∀ skb, buf.skb = some skb → buf.dma ≠ 0 ∧ desc.length = UInt16.ofNat skb.len ∧
    0 < skb.len ∧ skb.len ≤ 2048

/-- Every packet in the transmit ring can be looped back. -/
def Fit (a : Adapter) : Prop := ∀ k, Loopable (a.txRing.desc k) (a.txRing.buf k)

theorem Fit.update (h : Fit a) {i : ℕ} {desc : TxDesc} {buf : TxBuf} (hi : Loopable desc buf)
    (hdesc : b.txRing.desc = Function.update a.txRing.desc i desc)
    (hbuf : b.txRing.buf = Function.update a.txRing.buf i buf) : Fit b := by
  intro k
  rw [hdesc,hbuf]
  by_cases hk : k = i
  · subst hk
    simpa using hi
  · simpa [hk] using h k

theorem loopable_empty (desc : TxDesc) (dma : UInt64) (len : ℕ) : Loopable desc ⟨none,dma,len⟩ :=
  fun _ he => by contradiction

theorem Fit.reclaim (h : Fit a) (i : ℕ) : Fit (a.reclaim i) :=
  h.update (loopable_empty _ 0 0) rfl rfl

theorem Fit.startXmit (h : Fit a) {skb : SkBuff} {mapping : Option UInt64}
    (hskb : ∀ dma, mapping = some dma → dma ≠ 0 ∧ 0 < skb.len ∧ skb.len ≤ 2048) :
    Fit (a.startXmit skb mapping).1 := by
  obtain ⟨stopped,stats,es,-,hsame | ⟨dma,hmap,-,hpost⟩⟩ := startXmit_cases a skb mapping
  · rw [hsame]
    exact h
  · rw [hpost]
    obtain ⟨hdma,hpos,hlen⟩ := hskb dma hmap
    have hslot : Loopable ⟨dma,UInt16.ofNat skb.len,txdCmd,0⟩ ⟨some skb,dma,skb.len⟩ := by
      rintro skb' he
      obtain rfl := Option.some.inj he
      exact ⟨hdma,rfl,hpos,hlen⟩
    exact h.update hslot rfl rfl

theorem Fit.round (h : Fit a) (w : TxWorker) (kmallocOk : Bool) :
    Fit (a.hwTxWorkerRound w kmallocOk) := by
  have hhead : Loopable { a.txRing.desc w.head with status := txdStatDD }
      (a.txRing.buf w.head) := h w.head
  exact h.update hhead rfl (Function.update_eq_self _ _).symm

/-- The worker's copy is the whole packet. -/
theorem Fit.frameCopy (h : Fit a) {w : TxWorker} (hskb : (a.txRing.buf w.head).skb ≠ none) :
    a.frameCopy w true = some (a.txRing.buf w.head).frame ∧
      (a.txRing.buf w.head).frame.length ≤ rxBufSize := by
  obtain ⟨skb,hskb⟩ := Option.ne_none_iff_exists'.mp hskb
  obtain ⟨hdma,hdesc,hpos,hlen⟩ := h w.head skb hskb
  have htoNat : (a.txRing.desc w.head).length.toNat = skb.len := by
    rw [hdesc]
    exact Nat.mod_eq_of_lt (by omega)
  have hframe : (a.txRing.buf w.head).frame = skb.data := by
    unfold TxBuf.frame
    rw [hskb]
    rfl
  have hcopy : a.frameCopy w true = some ((a.txRing.buf w.head).frame.take
      (a.txRing.desc w.head).length.toNat) := by
    refine if_pos ⟨hdma,?_,rfl⟩
    rw [htoNat]
    exact Nat.pos_iff_ne_zero.mp hpos
  rw [hcopy,htoNat,hframe]
  exact ⟨congrArg some (List.take_of_length_le le_rfl),hlen⟩

/-! ### Steps -/

/-- Only a round of the worker completes frames. -/
theorem TxMove.frames {label : CardLabel} {tx : Adapter} (h : TxMove c label tx)
    (hi : c.Transmits) (hlabel : ∀ kmallocOk, label ≠ .workerRound kmallocOk) :
    completedFrames tx.log = completedFrames c.tx.log := by
  cases h with
  | flag stopped => rfl
  | @xmit skb mapping =>
    obtain ⟨stopped,stats,es,hes,hsame | ⟨dma,-,-,hpost⟩⟩ := startXmit_cases c.tx skb mapping
    · rw [hsame]
      exact completedFrames_silent _ hes
    · rw [hpost]
      exact completedFrames_silent _ hes
  | start hidle => rfl
  | round hw hne => exact absurd rfl (hlabel _)
  | @done w hw heq =>
    unfold Adapter.hwTxWorkerEnd
    by_cases hsent : w.sentAny
    · rw [if_pos hsent]
      exact completedFrames_silent _ (by simp [TxEvent.completed?])
    · rw [if_neg hsent]
  | @clean tx i packets bytes stats hloop =>
    obtain ⟨gone,queue,n,hload,hledger⟩ := hi
    obtain ⟨-,-,hledger'⟩ := cleanLoop_all hload hledger hloop
    change (completed tx.log).map TxBuf.frame = (completed c.tx.log).map TxBuf.frame
    rw [hledger'.completed,hledger.completed,List.take_zero,List.append_nil]

theorem rxStep_outcomes {a b : RxAdapter} {label : RxLabel}
    (hundelivered : ∀ frame, label ≠ .deliver frame) (hremains : label ≠ .free)
    (h : a.rxStep label = some b) : outcomes b.log = outcomes a.log := by
  obtain ⟨-,hstep⟩ := rxStep_cases h
  cases label with
  | deliver frame => exact absurd rfl (hundelivered frame)
  | free => contradiction
  | clean budget =>
    obtain ⟨w,-,rfl⟩ := hstep
    rfl
  | harvest =>
    obtain ⟨i,w,k,budget,-,-,rfl⟩ := hstep
    unfold RxAdapter.harvest
    by_cases hfaulty : (a.rxRing.desc i).faulty = true <;>
      cases hskb : (a.rxRing.buf i).skb <;>
        simp [hfaulty,RxAdapter.note,outcomes,RxEvent.outcome?]
  | harvested =>
    obtain ⟨i,w,k,budget,-,-,rfl⟩ := hstep
    unfold RxAdapter.harvested
    by_cases hk : k ≠ 0
    · rw [if_pos hk]
      rfl
    · rw [if_neg hk]
  | refill skb mapping =>
    obtain ⟨i,left,posted,caller,-,rfl⟩ := hstep
    cases skb <;> cases mapping <;>
      simp [RxAdapter.refill,RxAdapter.note,outcomes,RxEvent.outcome?]
  | announce =>
    obtain ⟨i,posted,caller,-,rfl⟩ := hstep
    unfold RxAdapter.announce
    by_cases hp : posted ≠ 0 <;> cases caller <;> simp [hp]

/-- Only a round of the worker offers frames to the receive ring. -/
theorem RxMove.outcomes_eq {label : CardLabel} {rx : RxAdapter} (h : RxMove c label rx)
    (hlabel : ∀ kmallocOk, label ≠ .workerRound kmallocOk) : outcomes rx.log = outcomes c.rx.log := by
  cases h with
  | keep => rfl
  | deliver hw hne hcopy => exact absurd rfl (hlabel _)
  | driver hundelivered hremains hstep => exact rxStep_outcomes hundelivered hremains hstep

/-- A frame that fits a buffer is received as it is, or dropped. -/
theorem deliver_outcome (hi : c.Receives) {frame : List UInt8} (hfits : frame.length ≤ rxBufSize) :
    ∃ kept, outcomes (c.rx.hwDeliverRxFrame frame).log = outcomes c.rx.log ++ [(frame,kept)] := by
  obtain ⟨start,filled,waiting,shown,fresh,missed,gone,hs⟩ := hi
  unfold RxAdapter.hwDeliverRxFrame
  by_cases hfull : c.rx.rdh = c.rx.rdt
  · rw [if_pos hfull]
    exact ⟨false,outcomes_append _ _⟩
  · obtain ⟨-,-,skb,-,hlen⟩ := hs.device hfull
    have hwhole : ¬ (c.rx.rxRing.buf c.rx.rdh).len < frame.length := by
      rw [hlen]
      exact not_lt.mpr hfits
    rw [if_neg hfull]
    simp only [hwhole,if_false]
    exact ⟨true,outcomes_append _ _⟩

/-- The frames offered to the receive ring are those completed, and every packet still in the
transmit ring can be looped back. -/
structure Looped (c : Card) : Prop where
  fit : Fit c.tx
  order : (outcomes c.rx.log).map Prod.fst = completedFrames c.tx.log

theorem TxMove.fit {label : CardLabel} {tx : Adapter} (h : TxMove c label tx) (hi : Fit c.tx)
    (hok : c.Loops label) : Fit tx := by
  cases h with
  | flag stopped => exact hi
  | @xmit skb mapping =>
    refine hi.startXmit ?_
    rintro dma rfl
    exact hok
  | start hidle => exact hi
  | round hw hne => exact hi.round _ _
  | @done w hw heq =>
    unfold Adapter.hwTxWorkerEnd
    by_cases hsent : w.sentAny
    · rw [if_pos hsent]
      exact hi
    · rw [if_neg hsent]
      exact hi
  | clean stats hloop =>
    have htx := cleanLoop_keeps (P := Fit) (fun _ i h => h.reclaim i) hi hloop
    exact htx

theorem looped_round (hi : Looped c) (htx : c.Transmits) (hrx : c.Receives) {w : TxWorker}
    (hw : c.tx.txWorker = some w) (hne : w.head ≠ w.tail) :
    (outcomes (c.hwTxWorkerRound w true).rx.log).map Prod.fst =
      completedFrames (c.hwTxWorkerRound w true).tx.log := by
  obtain ⟨gone,queue,n,hload,-⟩ := htx
  obtain ⟨hlt,hbuf,-⟩ := hload.worker_slot hw hne
  have hskb : (c.tx.txRing.buf w.head).skb ≠ none := by
    rw [hbuf]
    exact hload.skbs _ (List.getElem_mem hlt)
  obtain ⟨hcopy,hfits⟩ := hi.fit.frameCopy hskb
  obtain ⟨kept,hkept⟩ := deliver_outcome hrx hfits
  obtain ⟨rx,icr,hround,-,⟨hnone,-⟩ | ⟨frame,hsome,rfl⟩⟩ := workerRound_eq c w true
  · rw [hcopy] at hnone
    contradiction
  · obtain rfl := Option.some.inj (hcopy.symm.trans hsome)
    have hcompleted : completedFrames (c.tx.hwTxWorkerRound w true).log =
        completedFrames c.tx.log ++ [(c.tx.txRing.buf w.head).frame] := by
      have hfetch := completedFrames_silent c.tx.log fun e he =>
        (fetch_silent (c.tx.txRing.buf w.head) (c.tx.txRing.desc w.head).length.toNat true e he).2.2.1
      unfold Adapter.hwTxWorkerRound
      change completedFrames (c.tx.log ++ (_ ++ [.complete (c.tx.txRing.buf w.head)])) = _
      rw [← List.append_assoc,completedFrames_append,hfetch]
      rfl
    rw [hround]
    change (outcomes (c.rx.hwDeliverRxFrame _).log).map Prod.fst =
      completedFrames (c.tx.hwTxWorkerRound w true).log
    rw [hkept,hcompleted,List.map_append,hi.order]
    rfl

theorem looped_step {label : CardLabel} (hi : Looped c) (htx : c.Transmits) (hrx : c.Receives)
    (hok : c.Loops label) (h : c.step label = some d) : Looped d := by
  obtain ⟨htxMove,hrxMove⟩ := step_halves h
  refine ⟨htxMove.fit hi.fit hok,?_⟩
  by_cases hround : ∃ kmallocOk, label = .workerRound kmallocOk
  · obtain ⟨kmallocOk,rfl⟩ := hround
    obtain rfl : kmallocOk = true := hok
    obtain ⟨w,hw,hne,rfl⟩ := card_cases h
    exact looped_round hi htx hrx hw hne
  · have hother : ∀ kmallocOk, label ≠ .workerRound kmallocOk := fun k he => hround ⟨k,he⟩
    rw [hrxMove.outcomes_eq hother,htxMove.frames htx hother]
    exact hi.order

theorem probedCard_looped (tdh tdt rdh rdt : ℕ) : Looped (probedCard tdh tdt rdh rdt) :=
  ⟨fun _ => loopable_empty _ _ _,rfl⟩

theorem card_looped (h : card.ReachableUnder Card.Loops c) : Looped c := by
  have hstep : ∀ s label t, card.ReachableUnder Card.Loops s → Looped s → s.Loops label →
      card.step s label = some t → Looped t := fun _ _ _ hs hi hok hstep =>
    looped_step hi (card_transmits hs.reachable) (card_receives hs.reachable) hok hstep
  refine h.invariant ?_ hstep
  rintro s ⟨tdh,tdt,rdh,rdt,rfl⟩
  exact probedCard_looped tdh tdt rdh rdt

/-! ### The frames that wait for the driver -/

theorem slotFrame_filled (f : Filled) : slotFrame f.slot = f.frame := by
  have hfits := f.fits
  rw [rxBufSize] at hfits
  have hlen : (UInt16.ofNat f.frame.length).toNat = f.frame.length := Nat.mod_eq_of_lt (by omega)
  change (f.frame ++ f.skb.data.drop f.frame.length).take (UInt16.ofNat f.frame.length).toNat = _
  rw [hlen]
  exact List.take_left

theorem RxState.unharvested_eq {a : RxAdapter} {start shown fresh missed : ℕ} {filled : List Filled}
    {waiting : List Waiting} {gone : List (ℕ × UInt64)}
    (h : RxState a start filled waiting shown fresh missed gone) :
    a.unharvested = filled.map Filled.frame := by
  obtain ⟨rest,hwindow,hvacant⟩ := h.loaded.window_held
  have hfilled : (filled.map Filled.slot).filter (fun x => x.1.done) = filled.map Filled.slot := by
    refine List.filter_eq_self.mpr fun x hx => ?_
    obtain ⟨f,-,rfl⟩ := List.mem_map.mp hx
    exact f.desc_done
  have hwaiting : (waiting.map Waiting.slot).filter (fun x => x.1.done) = [] := by
    refine List.filter_eq_nil_iff.mpr fun x hx => ?_
    obtain ⟨e,-,rfl⟩ := List.mem_map.mp hx
    simp [e.desc_done]
  have hrest : rest.filter (fun x => x.1.done) = [] := by
    refine List.filter_eq_nil_iff.mpr fun x hx => ?_
    simp [(hvacant x hx).2]
  unfold RxAdapter.unharvested
  rw [h.start.1,hwindow,held,List.filter_append,List.filter_append,hfilled,hwaiting,hrest,
    List.append_nil,List.append_nil,List.map_map]
  exact List.map_congr_left fun f _ => slotFrame_filled f

/-- In every run the frames handed to the stack, followed by those waiting in the receive ring,
are the frames the worker has completed, in order and byte for byte, without those that found no
buffer; the three counters count the frames handed up, their bytes and the frames dropped. -/
theorem loopback_exact (h : card.ReachableUnder Card.Loops c) :
    (outcomes c.rx.log).map Prod.fst = completedFrames c.tx.log ∧
      handedUp c.rx.log ++ c.rx.unharvested = ((outcomes c.rx.log).filter Prod.snd).map Prod.fst ∧
      c.rx.stats.rxPackets = UInt64.ofNat (handedUp c.rx.log).length ∧
      c.rx.stats.rxBytes = UInt64.ofNat ((handedUp c.rx.log).map List.length).sum ∧
      c.rx.stats.rxDropped = UInt64.ofNat ((outcomes c.rx.log).filter (fun x => !x.2)).length := by
  obtain ⟨start,filled,waiting,shown,fresh,missed,gone,hs⟩ := card_receives h.reachable
  obtain ⟨-,horder,hpackets,hbytes,hdropped,-⟩ := hs.carried
  refine ⟨(card_looped h).order,?_,hpackets,hbytes,?_⟩
  · rw [kept_outcomes,hs.unharvested_eq,horder]
  · rw [hdropped,← lost_outcomes,List.length_map]

/-- One receive buffer, three packets: the first two go out together, the second finds no buffer;
the poll takes the first and posts a new buffer, in which the third waits. -/
def threePackets : List CardLabel :=
  [.receive (.refill (some ⟨1,[]⟩) (some 4096)),.receive (.refill none none),.receive .announce,
    .register,.ndoOpen,.ndo true,.ndo true,.ndo true,.ndo true,.xmit ⟨10,[1,2]⟩ (some 64),
    .xmit ⟨11,[3]⟩ (some 128),.workerStart,.workerRound true,.workerRound true,.workerEnd,
    .napiPoll 64,.poll,.poll,.poll,.receive .harvest,.receive .harvested,
    .receive (.refill (some ⟨2,[]⟩) (some 8192)),.receive .announce,.xmit ⟨12,[4,5,6]⟩ (some 64),
    .workerStart,.workerRound true,.workerEnd,.poll,.poll]

theorem loopback_exact_run : ∃ c, card.ReachableUnder Card.Loops c ∧
    (handedUp c.rx.log,c.rx.unharvested) = ([[1,2]],[[4,5,6]]) ∧
    completedFrames c.tx.log = [[1,2],[3],[4,5,6]] ∧ c.rx.stats.rxDropped = 1 ∧
    handedUp c.rx.log ++ c.rx.unharvested = ((outcomes c.rx.log).filter Prod.snd).map Prod.fst := by
  have hrun : ((card.restrict Card.Loops).run threePackets (probedCard 7 7 9 9)).map
      (fun c => (handedUp c.rx.log,c.rx.unharvested)) = some ([[1,2]],[[4,5,6]]) := by
    decide +kernel
  have hsent : ((card.restrict Card.Loops).run threePackets (probedCard 7 7 9 9)).map
      (fun c => (completedFrames c.tx.log,c.rx.stats.rxDropped)) = some ([[1,2],[3],[4,5,6]],1) := by
    decide +kernel
  obtain ⟨c,hc,hout⟩ := Option.map_eq_some_iff.mp hrun
  rw [hc,Option.map_some] at hsent
  obtain ⟨hframes,hdropped⟩ := Prod.mk.inj (Option.some.inj hsent)
  have hreach : card.ReachableUnder Card.Loops c := .of_run (card_init 7 7 9 9) hc
  exact ⟨c,hreach,hout,hframes,hdropped,(loopback_exact hreach).2.1⟩

end NetLab.Edunic
