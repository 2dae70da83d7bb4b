import Mathlib
import NetLab.Foundation.Gate
import NetLab.Edunic.TxPath

/-! The network queue of edunic with edunic_start_xmit on one CPU and edunic_clean_tx_irq on
another, while the device marks descriptors done: every read and write of `next_to_use`, of
`next_to_clean` and of the queue's flag is a step of its own. -/
namespace NetLab.Edunic
open NetLab.Ring

/-- edunic_tx_unused on the values it has read. -/
def unusedAt (clean use count : ℕ) : ℕ := u16 (Int.tmod ((clean : ℤ)-use-1+count) count)

theorem unused_eq (r : TxRing) : r.unused = unusedAt r.nextToClean r.nextToUse r.count := rfl

/-- Where edunic_maybe_stop_tx is: in its first edunic_tx_unused before the two reads, before
netif_stop_queue, in its second edunic_tx_unused before the two reads, before
netif_wake_queue. Only its own CPU writes `next_to_use`, so which index is read first does not
matter. -/
inductive StopPc
  | testClean
  | testUse (clean : ℕ)
  | stop
  | recheckClean
  | recheckUse (clean : ℕ)
  | wake
deriving DecidableEq, Repr

/-- Where edunic_start_xmit is: in the first edunic_maybe_stop_tx, before the packet is mapped
and its slot filled, before `next_to_use` is written, before the doorbell, in the second
edunic_maybe_stop_tx. -/
inductive XmitPc
  | idle
  | entry (pc : StopPc) (skb : SkBuff) (mapping : Option UInt64)
  | fill (skb : SkBuff) (mapping : Option UInt64)
  | advance (i : ℕ) (skb : SkBuff)
  | doorbell (skb : SkBuff)
  | posted (pc : StopPc) (skb : SkBuff)
deriving DecidableEq, Repr

/-- Where edunic_clean_tx_irq is: in its loop before `next_to_use` is read, before
`next_to_clean` is written, before the queue's flag is read, in edunic_tx_unused before the two
reads, before netif_wake_queue. -/
inductive CleanPc
  | idle
  | loop (i packets : ℕ) (bytes : UInt32)
  | store (i packets : ℕ) (bytes : UInt32)
  | flag (packets : ℕ) (bytes : UInt32)
  | roomClean
  | roomUse (clean : ℕ)
  | wake
deriving DecidableEq, Repr

/-- The adapter and the two CPUs. -/
structure Cpus where
  adapter : Adapter
  xmit : XmitPc
  clean : CleanPc

namespace Adapter

/-- What edunic_maybe_stop_tx does next: go on, or return; `true` stands for -EBUSY. -/
def stopStep (a : Adapter) (pc : StopPc) : Adapter × (StopPc ⊕ Bool) :=
  match pc with
  | .testClean => (a,.inl (.testUse a.txRing.nextToClean))
  | .testUse clean =>
    if txDescPerPkt ≤ unusedAt clean a.txRing.nextToUse a.txRing.count then (a,.inr false)
    else (a,.inl .stop)
  | .stop => ({ a with queueStopped := true },.inl .recheckClean)
  | .recheckClean => (a,.inl (.recheckUse a.txRing.nextToClean))
  | .recheckUse clean =>
    if unusedAt clean a.txRing.nextToUse a.txRing.count < txDescPerPkt then (a,.inr true)
    else (a,.inl .wake)
  | .wake => ({ a with queueStopped := false },.inr false)

/-- The slot and the descriptor at `next_to_use` filled. -/
def fill (a : Adapter) (skb : SkBuff) (dma : UInt64) : Adapter :=
  let i := a.txRing.nextToUse
  { a with
    txRing := { a.txRing with
      buf := Function.update a.txRing.buf i ⟨some skb,dma,skb.len⟩
      desc := Function.update a.txRing.desc i ⟨dma,UInt16.ofNat skb.len,txdCmd,0⟩ } }

/-- `next_to_use` moved past slot `i`. -/
def useNext (a : Adapter) (i : ℕ) : Adapter :=
  { a with txRing := { a.txRing with nextToUse := next i } }

/-- The counters of edunic_clean_tx_irq. -/
def count (a : Adapter) (packets : ℕ) (bytes : UInt32) : Adapter :=
  { a with stats := { a.stats with
      txPackets := a.stats.txPackets+UInt64.ofNat packets
      txBytes := a.stats.txBytes+bytes.toUInt64 } }

end Adapter

namespace Cpus

/-- The next step of edunic_start_xmit. -/
def xmitStep (s : Cpus) : Option Cpus :=
  match s.xmit with
  | .idle => none
  | .entry pc skb mapping =>
    match s.adapter.stopStep pc with
    | (a,.inl pc) => some { s with adapter := a, xmit := .entry pc skb mapping }
    | (a,.inr true) => some { s with adapter := a.note [.refused skb], xmit := .idle }
    | (a,.inr false) => some { s with adapter := a, xmit := .fill skb mapping }
  | .fill skb none =>
    let stats := { s.adapter.stats with txErrors := s.adapter.stats.txErrors+1 }
    some { s with
      adapter := { s.adapter with stats }.note [.kfree skb,.accepted skb]
      xmit := .idle }
  | .fill skb (some dma) =>
    some { s with
      adapter := (s.adapter.note [.map skb dma]).fill skb dma
      xmit := .advance s.adapter.txRing.nextToUse skb }
  | .advance i skb => some { s with adapter := s.adapter.useNext i, xmit := .doorbell skb }
  | .doorbell skb =>
    some { s with adapter := s.adapter.ringDoorbell.hwKickTx, xmit := .posted .testClean skb }
  | .posted pc skb =>
    match s.adapter.stopStep pc with
    | (a,.inl pc) => some { s with adapter := a, xmit := .posted pc skb }
    | (a,.inr _) => some { s with adapter := a.note [.accepted skb], xmit := .idle }

/-- The next step of edunic_clean_tx_irq. -/
def cleanStep (s : Cpus) : Option Cpus :=
  match s.clean with
  | .idle => none
  | .loop i packets bytes =>
    if i ≠ s.adapter.txRing.nextToUse ∧ (s.adapter.txRing.desc i).done then
      some { s with
        adapter := s.adapter.reclaim i
        clean := .loop (next i) (packets+1) (bytes+UInt32.ofNat (s.adapter.txRing.buf i).len) }
    else some { s with clean := .store i packets bytes }
  | .store i packets bytes =>
    some { s with
      adapter := s.adapter.cleanedTo i
      clean := if packets ≠ 0 then .flag packets bytes else .idle }
  | .flag packets bytes =>
    some { s with
      adapter := s.adapter.count packets bytes
      clean := if s.adapter.queueStopped then .roomClean else .idle }
  | .roomClean => some { s with clean := .roomUse s.adapter.txRing.nextToClean }
  | .roomUse clean =>
    let unused := unusedAt clean s.adapter.txRing.nextToUse s.adapter.txRing.count
    some { s with clean := if txDescPerPkt ≤ unused then .wake else .idle }
  | .wake => some { s with adapter := { s.adapter with queueStopped := false }, clean := .idle }

end Cpus

inductive CpuLabel
  | callXmit (skb : SkBuff) (mapping : Option UInt64)
  | xmit
  | callClean
  | clean
  | done (i : ℕ)
deriving DecidableEq, Repr

/-- The device marks a descriptor done. -/
def Adapter.markDone (a : Adapter) (i : ℕ) : Adapter :=
  { a with txRing := { a.txRing with
      desc := Function.update a.txRing.desc i { a.txRing.desc i with status := txdStatDD } } }

/-- One step of either CPU, or of the device. Neither function is called while it runs; the
call of edunic_clean_tx_irq reads `next_to_clean`. -/
def Cpus.step (s : Cpus) (label : CpuLabel) : Option Cpus :=
  match label with
  | .callXmit skb mapping =>
    if s.xmit = .idle then some { s with xmit := .entry .testClean skb mapping } else none
  | .xmit => s.xmitStep
  | .callClean =>
    if s.clean = .idle then some { s with clean := .loop s.adapter.txRing.nextToClean 0 0 }
    else none
  | .clean => s.cleanStep
  | .done i => if i < ringSize then some { s with adapter := s.adapter.markDone i } else none

/-- The two CPUs, from edunic_probe on. -/
def cpus : Machine Cpus CpuLabel where
  init s := ∃ tdh tdt, s = ⟨probed emptyTxRing tdh tdt,.idle,.idle⟩
  step := Cpus.step

/-! ### Indices -/

/-- From the first to the last index `m` slots are in use. -/
structure Spans (r : TxRing) (m : ℕ) : Prop where
  bound : m < ringSize
  count : r.count = ringSize
  clean_lt : r.nextToClean < ringSize
  use : r.nextToUse = cell ringSize r.nextToClean m

variable {r : TxRing} {a b : Adapter} {s t : Cpus} {m e c i : ℕ}

/-- edunic_tx_unused on a start of the ring that may be `e` slots old. -/
theorem unusedAt_eq (hc : c < ringSize) (he : e < ringSize) :
    unusedAt c (cell ringSize c e) ringSize = ringSize-1-e := by
  rw [unusedAt,u16]
  simp only [cell,ringSize] at *
  rw [Int.tmod_eq_emod_of_nonneg (by omega)]
  omega

namespace Spans

theorem unused (h : Spans r m) : r.unused = ringSize-1-m := by
  rw [unused_eq,h.count,h.use,unusedAt_eq h.clean_lt h.bound]

theorem room_iff (h : Spans r m) : txDescPerPkt ≤ r.unused ↔ m+1 < ringSize := by
  have hbound := h.bound
  rw [h.unused,txDescPerPkt]
  omega

/-- A start read earlier shows at most the room there is. -/
theorem stale (h : Spans r m) (hc : c < ringSize) (he : r.nextToClean = cell ringSize c e)
    (hem : e+m < ringSize) : unusedAt c r.nextToUse r.count = ringSize-1-(e+m) := by
  rw [h.count,h.use,he,cell_cell,unusedAt_eq hc hem]

theorem empty_iff (h : Spans r m) : r.nextToClean = r.nextToUse ↔ m = 0 := by
  have hbound := h.bound
  have hclean := h.clean_lt
  rw [h.use]
  simp only [cell,ringSize] at *
  omega

end Spans

/-- What edunic_maybe_stop_tx knows: a start it has read is at most as new as the real one, and
it undoes a stop only where there is room. -/
def StopPc.Knows (r : TxRing) (m : ℕ) : StopPc → Prop
  | .testUse clean | .recheckUse clean =>
    clean < ringSize ∧ ∃ e, r.nextToClean = cell ringSize clean e ∧ e+m < ringSize
  | .wake => m+1 < ringSize
  | _ => True

/-- What edunic_start_xmit knows: it fills a slot only where there is room. -/
def XmitPc.Knows (r : TxRing) (m : ℕ) : XmitPc → Prop
  | .entry pc _ _ | .posted pc _ => pc.Knows r m
  | .fill _ _ => m+1 < ringSize
  | .advance i _ => i = r.nextToUse ∧ m+1 < ringSize
  | _ => True

/-- What edunic_clean_tx_irq knows: the slots it has reclaimed were in use, and it has
written the start it reads. -/
def CleanPc.Knows (r : TxRing) (m : ℕ) : CleanPc → Prop
  | .loop i packets _ | .store i packets _ =>
    i = cell ringSize r.nextToClean packets ∧ packets ≤ m
  | .roomUse clean => clean = r.nextToClean
  | _ => True

/-- The ring has `m` slots in use, and both CPUs know it. -/
structure InUse (s : Cpus) (m : ℕ) : Prop where
  spans : Spans s.adapter.txRing m
  xmit : s.xmit.Knows s.adapter.txRing m
  clean : s.clean.Knows s.adapter.txRing m

/-- Filling a slot and marking one done leave the indices alone. -/
def SameIndices (r r' : TxRing) : Prop :=
  r'.nextToUse = r.nextToUse ∧ r'.nextToClean = r.nextToClean ∧ r'.count = r.count

theorem SameIndices.refl (r : TxRing) : SameIndices r r := ⟨rfl,rfl,rfl⟩

section
variable {r' : TxRing}

theorem Spans.congr (h : Spans r m) (hr : SameIndices r r') : Spans r' m := by
  obtain ⟨huse,hclean,hcount⟩ := hr
  exact ⟨h.bound,by rw [hcount,h.count],by rw [hclean]; exact h.clean_lt,by rw [huse,hclean,h.use]⟩

theorem StopPc.Knows.congr {pc : StopPc} (h : pc.Knows r m) (hr : SameIndices r r') :
    pc.Knows r' m := by
  cases pc <;> simp_all [StopPc.Knows,SameIndices]

theorem XmitPc.Knows.congr {pc : XmitPc} (h : pc.Knows r m) (hr : SameIndices r r') :
    pc.Knows r' m := by
  cases pc with
  | entry pc skb mapping => exact StopPc.Knows.congr h hr
  | posted pc skb => exact StopPc.Knows.congr h hr
  | advance i skb => exact ⟨h.1.trans hr.1.symm,h.2⟩
  | fill skb mapping => exact h
  | idle => trivial
  | doorbell skb => trivial

theorem CleanPc.Knows.congr {pc : CleanPc} (h : pc.Knows r m) (hr : SameIndices r r') :
    pc.Knows r' m := by
  cases pc <;> simp_all [CleanPc.Knows,SameIndices]

/-- edunic_start_xmit has taken one more slot. -/
theorem CleanPc.Knows.grow {pc : CleanPc} (h : pc.Knows r m) (hclean : r'.nextToClean = r.nextToClean) :
    pc.Knows r' (m+1) := by
  cases pc with
  | loop i packets bytes =>
    obtain ⟨hi,hle⟩ := h
    exact ⟨by rw [hclean,hi],by omega⟩
  | store i packets bytes =>
    obtain ⟨hi,hle⟩ := h
    exact ⟨by rw [hclean,hi],by omega⟩
  | roomUse clean => exact h.trans hclean.symm
  | idle => trivial
  | flag packets bytes => trivial
  | roomClean => trivial
  | wake => trivial

/-- edunic_clean_tx_irq has given back the first `k` slots. -/
theorem XmitPc.Knows.shrink {pc : XmitPc} {k : ℕ} (h : pc.Knows r m) (hk : k ≤ m)
    (hclean : r'.nextToClean = cell ringSize r.nextToClean k) (huse : r'.nextToUse = r.nextToUse) :
    pc.Knows r' (m-k) := by
  have hstop : ∀ {pc : StopPc}, pc.Knows r m → pc.Knows r' (m-k) := by
    intro pc h
    have hread : ∀ {c}, (c < ringSize ∧ ∃ e, r.nextToClean = cell ringSize c e ∧ e+m < ringSize) →
        c < ringSize ∧ ∃ e, r'.nextToClean = cell ringSize c e ∧ e+(m-k) < ringSize := by
      rintro c ⟨hc,e,he,hem⟩
      exact ⟨hc,e+k,by rw [hclean,he,cell_cell],by omega⟩
    cases pc with
    | testUse clean => exact hread h
    | recheckUse clean => exact hread h
    | wake => exact lt_of_le_of_lt (by omega) (show m+1 < ringSize from h)
    | testClean => trivial
    | stop => trivial
    | recheckClean => trivial
  cases pc with
  | entry pc skb mapping => exact hstop h
  | posted pc skb => exact hstop h
  | fill skb mapping => exact lt_of_le_of_lt (by omega) (show m+1 < ringSize from h)
  | advance i skb => exact ⟨h.1.trans huse.symm,lt_of_le_of_lt (by omega) h.2⟩
  | idle => trivial
  | doorbell skb => trivial

end

/-- Where edunic_maybe_stop_tx goes knows what it needs; it lets a packet through only where
there is room. -/
theorem stopStep_spec (h : Spans a.txRing m) {pc : StopPc} (hpc : pc.Knows a.txRing m) :
    (a.stopStep pc).1.txRing = a.txRing ∧
      (∀ pc', (a.stopStep pc).2 = .inl pc' → pc'.Knows a.txRing m) ∧
      ((a.stopStep pc).2 = .inr false → m+1 < ringSize) := by
  have hbound := h.bound
  cases pc with
  | testClean =>
    refine ⟨rfl,fun pc' hp => ?_,fun hp => by simp [Adapter.stopStep] at hp⟩
    rw [← Sum.inl.inj hp]
    exact ⟨h.clean_lt,0,(cell_zero h.clean_lt).symm,by omega⟩
  | testUse clean =>
    obtain ⟨hc,e,he,hem⟩ := hpc
    have hunused := h.stale hc he hem
    by_cases hroom : txDescPerPkt ≤ unusedAt clean a.txRing.nextToUse a.txRing.count
    · have hgo : a.stopStep (.testUse clean) = (a,.inr false) := if_pos hroom
      rw [hgo]
      refine ⟨rfl,fun pc' hp => by simp at hp,fun _ => ?_⟩
      rw [hunused,txDescPerPkt] at hroom
      omega
    · have hgo : a.stopStep (.testUse clean) = (a,.inl .stop) := if_neg hroom
      rw [hgo]
      refine ⟨rfl,fun pc' hp => ?_,fun hp => by simp at hp⟩
      rw [← Sum.inl.inj hp]
      trivial
  | stop =>
    refine ⟨rfl,fun pc' hp => ?_,fun hp => by simp [Adapter.stopStep] at hp⟩
    rw [← Sum.inl.inj hp]
    trivial
  | recheckClean =>
    refine ⟨rfl,fun pc' hp => ?_,fun hp => by simp [Adapter.stopStep] at hp⟩
    rw [← Sum.inl.inj hp]
    exact ⟨h.clean_lt,0,(cell_zero h.clean_lt).symm,by omega⟩
  | recheckUse clean =>
    obtain ⟨hc,e,he,hem⟩ := hpc
    have hunused := h.stale hc he hem
    by_cases hfull : unusedAt clean a.txRing.nextToUse a.txRing.count < txDescPerPkt
    · have hgo : a.stopStep (.recheckUse clean) = (a,.inr true) := if_pos hfull
      rw [hgo]
      exact ⟨rfl,fun pc' hp => by simp at hp,fun hp => by simp at hp⟩
    · have hgo : a.stopStep (.recheckUse clean) = (a,.inl .wake) := if_neg hfull
      rw [hgo]
      refine ⟨rfl,fun pc' hp => ?_,fun hp => by simp at hp⟩
      rw [← Sum.inl.inj hp]
      rw [hunused,txDescPerPkt] at hfull
      change m+1 < ringSize
      omega
  | wake => exact ⟨rfl,fun pc' hp => by simp [Adapter.stopStep] at hp,fun _ => hpc⟩

/-- The same in terms of its outcome. -/
theorem stopStep_same (h : Spans a.txRing m) {pc : StopPc} (hpc : pc.Knows a.txRing m)
    {out : StopPc ⊕ Bool} (hout : a.stopStep pc = (b,out)) : SameIndices a.txRing b.txRing ∧
      (∀ pc', out = .inl pc' → pc'.Knows b.txRing m) ∧ (out = .inr false → m+1 < ringSize) := by
  obtain ⟨hring,hgo,hroom⟩ := stopStep_spec h hpc
  rw [hout] at hring hgo hroom
  change b.txRing = a.txRing at hring
  rw [hring]
  exact ⟨.refl _,hgo,hroom⟩

theorem xmitStep_inUse (h : InUse s m) (hs : s.xmitStep = some t) : ∃ m', InUse t m' := by
  have hx := h.xmit
  unfold Cpus.xmitStep at hs
  cases hpc : s.xmit with
  | idle => simp [hpc] at hs
  | entry pc skb mapping =>
    rw [hpc] at hs hx
    cases hout : s.adapter.stopStep pc with
    | mk a out =>
      obtain ⟨hsame,hgo,hroom⟩ := stopStep_same h.spans hx hout
      simp only [hout] at hs
      cases out with
      | inl pc' =>
        obtain rfl := Option.some.inj hs
        exact ⟨m,h.spans.congr hsame,hgo pc' rfl,h.clean.congr hsame⟩
      | inr busy =>
        cases busy with
        | true =>
          obtain rfl := Option.some.inj hs
          exact ⟨m,h.spans.congr hsame,trivial,h.clean.congr hsame⟩
        | false =>
          obtain rfl := Option.some.inj hs
          exact ⟨m,h.spans.congr hsame,hroom rfl,h.clean.congr hsame⟩
  | fill skb mapping =>
    rw [hpc] at hs hx
    cases mapping with
    | none =>
      obtain rfl := Option.some.inj hs
      exact ⟨m,h.spans,trivial,h.clean⟩
    | some dma =>
      obtain rfl := Option.some.inj hs
      exact ⟨m,h.spans.congr ⟨rfl,rfl,rfl⟩,⟨rfl,hx⟩,h.clean.congr ⟨rfl,rfl,rfl⟩⟩
  | advance i skb =>
    rw [hpc] at hs hx
    obtain rfl := Option.some.inj hs
    obtain ⟨rfl,hroom⟩ := hx
    refine ⟨m+1,⟨hroom,h.spans.count,h.spans.clean_lt,?_⟩,trivial,h.clean.grow rfl⟩
    change next s.adapter.txRing.nextToUse = _
    rw [h.spans.use,next_cell]
    rfl
  | doorbell skb =>
    rw [hpc] at hs
    obtain rfl := Option.some.inj hs
    exact ⟨m,h.spans,trivial,h.clean⟩
  | posted pc skb =>
    rw [hpc] at hs hx
    cases hout : s.adapter.stopStep pc with
    | mk a out =>
      obtain ⟨hsame,hgo,-⟩ := stopStep_same h.spans hx hout
      simp only [hout] at hs
      cases out with
      | inl pc' =>
        obtain rfl := Option.some.inj hs
        exact ⟨m,h.spans.congr hsame,hgo pc' rfl,h.clean.congr hsame⟩
      | inr busy =>
        obtain rfl := Option.some.inj hs
        exact ⟨m,h.spans.congr hsame,trivial,h.clean.congr hsame⟩

theorem cleanStep_inUse (h : InUse s m) (hs : s.cleanStep = some t) : ∃ m', InUse t m' := by
  have hc := h.clean
  have hbound := h.spans.bound
  unfold Cpus.cleanStep at hs
  cases hpc : s.clean with
  | idle => simp [hpc] at hs
  | loop i packets bytes =>
    rw [hpc] at hs hc
    dsimp only at hs
    obtain ⟨hi,hle⟩ := hc
    by_cases hgo : i ≠ s.adapter.txRing.nextToUse ∧ (s.adapter.txRing.desc i).done
    · rw [if_pos hgo] at hs
      obtain rfl := Option.some.inj hs
      have hne : packets ≠ m := by
        rintro rfl
        exact hgo.1 (hi.trans h.spans.use.symm)
      exact ⟨m,h.spans.congr ⟨rfl,rfl,rfl⟩,h.xmit.congr ⟨rfl,rfl,rfl⟩,by rw [hi]; exact next_cell _ _,
        by omega⟩
    · rw [if_neg hgo] at hs
      obtain rfl := Option.some.inj hs
      exact ⟨m,h.spans,h.xmit,hi,hle⟩
  | store i packets bytes =>
    rw [hpc] at hs hc
    obtain rfl := Option.some.inj hs
    obtain ⟨hi,hle⟩ := hc
    have huse : s.adapter.txRing.nextToUse = cell ringSize i (m-packets) := by
      rw [hi,cell_cell,Nat.add_sub_cancel' hle]
      exact h.spans.use
    refine ⟨m-packets,⟨by omega,h.spans.count,?_,huse⟩,h.xmit.shrink hle hi rfl,?_⟩
    · rw [hi]
      exact cell_lt ringSize_pos
    · dsimp only
      split <;> trivial
  | flag packets bytes =>
    rw [hpc] at hs
    obtain rfl := Option.some.inj hs
    refine ⟨m,h.spans,h.xmit,?_⟩
    dsimp only
    split <;> trivial
  | roomClean =>
    rw [hpc] at hs
    obtain rfl := Option.some.inj hs
    exact ⟨m,h.spans,h.xmit,rfl⟩
  | roomUse clean =>
    rw [hpc] at hs
    obtain rfl := Option.some.inj hs
    refine ⟨m,h.spans,h.xmit,?_⟩
    dsimp only
    split <;> trivial
  | wake =>
    rw [hpc] at hs
    obtain rfl := Option.some.inj hs
    exact ⟨m,h.spans,h.xmit,trivial⟩

theorem step_inUse {label : CpuLabel} (h : InUse s m) (hs : cpus.step s label = some t) :
    ∃ m', InUse t m' := by
  cases label with
  | callXmit skb mapping =>
    obtain ⟨-,rfl⟩ := guarded_eq_some.mp hs
    exact ⟨m,h.spans,trivial,h.clean⟩
  | xmit => exact xmitStep_inUse h hs
  | callClean =>
    obtain ⟨-,rfl⟩ := guarded_eq_some.mp hs
    exact ⟨m,h.spans,h.xmit,(cell_zero h.spans.clean_lt).symm,Nat.zero_le m⟩
  | clean => exact cleanStep_inUse h hs
  | done i =>
    obtain ⟨-,rfl⟩ := guarded_eq_some.mp hs
    exact ⟨m,h.spans.congr ⟨rfl,rfl,rfl⟩,h.xmit.congr ⟨rfl,rfl,rfl⟩,h.clean.congr ⟨rfl,rfl,rfl⟩⟩

theorem cpus_inUse (h : cpus.Reachable s) : ∃ m, InUse s m := by
  have hstep : ∀ s label t, cpus.Reachable s → (∃ m, InUse s m) → True →
      cpus.step s label = some t → ∃ m, InUse t m := by
    rintro s label t - ⟨m,hi⟩ - hs
    exact step_inUse hi hs
  refine h.invariant ?_ hstep
  rintro s ⟨tdh,tdt,rfl⟩
  exact ⟨0,⟨ringSize_pos,rfl,ringSize_pos,rfl⟩,trivial,trivial⟩

/-! ### The queue as a gate -/

inductive Party
  | xmit
  | clean

/-- Either party's promise. -/
def owedBy (xmit clean : Prop) : Party → Prop
  | .xmit => xmit
  | .clean => clean

/-- edunic_maybe_stop_tx has still to look whether there is room, or has found that there is. -/
def StopPc.Owes (r : TxRing) : StopPc → Prop
  | .recheckClean | .wake => True
  | .recheckUse clean => txDescPerPkt ≤ unusedAt clean r.nextToUse r.count
  | _ => False

def XmitPc.Owes (r : TxRing) : XmitPc → Prop
  | .entry pc _ _ | .posted pc _ => pc.Owes r
  | _ => False

/-- edunic_clean_tx_irq has written `next_to_clean` and not finished its test. -/
def CleanPc.Owes : CleanPc → Prop
  | .flag _ _ | .roomClean | .roomUse _ | .wake => True
  | _ => False

/-- The queue as the two functions see it, with their promises. -/
def Adapter.gate (a : Adapter) (xmit clean : Prop) : Gate Party :=
  ⟨a.queueStopped = true,txDescPerPkt ≤ a.txRing.unused,owedBy xmit clean⟩

def Cpus.gate (s : Cpus) : Gate Party :=
  s.adapter.gate (s.xmit.Owes s.adapter.txRing) s.clean.Owes

/-- What edunic_maybe_stop_tx owes after a step. -/
def stopOwes (r : TxRing) : StopPc ⊕ Bool → Prop
  | .inl pc => pc.Owes r
  | .inr _ => False

/-- Each step of edunic_maybe_stop_tx is safe: it looks again after it has stopped the queue. -/
theorem stopStep_gate (a : Adapter) (pc : StopPc) (o : Prop) :
    (a.gate (pc.Owes a.txRing) o).Move
      ((a.stopStep pc).1.gate (stopOwes a.txRing (a.stopStep pc).2) o) := by
  cases pc with
  | testClean => exact .keep id id fun p hp => by cases p <;> exact hp
  | testUse clean =>
    by_cases hroom : txDescPerPkt ≤ unusedAt clean a.txRing.nextToUse a.txRing.count
    · have hgo : a.stopStep (.testUse clean) = (a,.inr false) := if_pos hroom
      rw [hgo]
      exact .keep id id fun p hp => by cases p <;> exact hp
    · have hgo : a.stopStep (.testUse clean) = (a,.inl .stop) := if_neg hroom
      rw [hgo]
      exact .keep id id fun p hp => by cases p <;> exact hp
  | stop => exact .owing .xmit trivial
  | recheckClean =>
    by_cases hroom : txDescPerPkt ≤ a.txRing.unused
    · exact .owing .xmit hroom
    · exact .full hroom
  | recheckUse clean =>
    by_cases hfull : unusedAt clean a.txRing.nextToUse a.txRing.count < txDescPerPkt
    · have hgo : a.stopStep (.recheckUse clean) = (a,.inr true) := if_pos hfull
      rw [hgo]
      refine .keep id id fun p hp => ?_
      cases p with
      | xmit => exact absurd hfull (Nat.not_lt.mpr hp)
      | clean => exact hp
    · have hgo : a.stopStep (.recheckUse clean) = (a,.inl .wake) := if_neg hfull
      rw [hgo]
      exact .owing .xmit trivial
  | wake => exact .opened (by simp [Adapter.gate,Adapter.stopStep])

/-- The same in terms of its outcome. -/
theorem stopStep_moves (h : Spans a.txRing m) {pc : StopPc} (hpc : pc.Knows a.txRing m)
    {out : StopPc ⊕ Bool} (hout : a.stopStep pc = (b,out)) (o : Prop) :
    (a.gate (pc.Owes a.txRing) o).Move (b.gate (stopOwes b.txRing out) o) := by
  obtain ⟨hring,-,-⟩ := stopStep_spec h hpc
  have hmove := stopStep_gate a pc o
  rw [hout] at hring hmove
  change b.txRing = a.txRing at hring
  rw [hring]
  exact hmove

/-- A step that leaves the queue's flag, the indices and the promises alone. -/
theorem gate_keep {x x' o o' : Prop} (hstopped : b.queueStopped = a.queueStopped)
    (hring : SameIndices a.txRing b.txRing) (hx : x → x') (ho : o → o') :
    (a.gate x o).Move (b.gate x' o') := by
  obtain ⟨huse,hclean,hcount⟩ := hring
  refine .keep (fun hc => ?_) (fun hr => ?_) fun p hp => ?_
  · exact hstopped.symm.trans hc
  · change txDescPerPkt ≤ unusedAt _ _ _ at hr
    rwa [huse,hclean,hcount] at hr
  · cases p with
    | xmit => exact hx hp
    | clean => exact ho hp

theorem xmitStep_gate (h : InUse s m) (hs : s.xmitStep = some t) : s.gate.Move t.gate := by
  have hx := h.xmit
  unfold Cpus.gate
  unfold Cpus.xmitStep at hs
  cases hpc : s.xmit with
  | idle => simp [hpc] at hs
  | entry pc skb mapping =>
    rw [hpc] at hs hx
    cases hout : s.adapter.stopStep pc with
    | mk a out =>
      have hmove := stopStep_moves h.spans hx hout s.clean.Owes
      simp only [hout] at hs
      cases out with
      | inl pc' =>
        obtain rfl := Option.some.inj hs
        exact hmove
      | inr busy => cases busy <;> obtain rfl := Option.some.inj hs <;> exact hmove
  | fill skb mapping =>
    rw [hpc] at hs
    cases mapping <;> obtain rfl := Option.some.inj hs <;>
      exact gate_keep rfl ⟨rfl,rfl,rfl⟩ False.elim id
  | advance i skb =>
    rw [hpc] at hs hx
    obtain rfl := Option.some.inj hs
    refine .keep id (fun _ => h.spans.room_iff.mpr hx.2) fun p hp => ?_
    cases p with
    | xmit => exact hp.elim
    | clean => exact hp
  | doorbell skb =>
    rw [hpc] at hs
    obtain rfl := Option.some.inj hs
    exact gate_keep rfl ⟨rfl,rfl,rfl⟩ False.elim id
  | posted pc skb =>
    rw [hpc] at hs hx
    cases hout : s.adapter.stopStep pc with
    | mk a out =>
      have hmove := stopStep_moves h.spans hx hout s.clean.Owes
      simp only [hout] at hs
      cases out with
      | inl pc' =>
        obtain rfl := Option.some.inj hs
        exact hmove
      | inr busy =>
        obtain rfl := Option.some.inj hs
        exact hmove

theorem cleanStep_gate (h : InUse s m) (hs : s.cleanStep = some t) : s.gate.Move t.gate := by
  have hc := h.clean
  unfold Cpus.gate
  unfold Cpus.cleanStep at hs
  cases hpc : s.clean with
  | idle => simp [hpc] at hs
  | loop i packets bytes =>
    rw [hpc] at hs
    dsimp only at hs
    by_cases hgo : i ≠ s.adapter.txRing.nextToUse ∧ (s.adapter.txRing.desc i).done
    · rw [if_pos hgo] at hs
      obtain rfl := Option.some.inj hs
      exact gate_keep rfl ⟨rfl,rfl,rfl⟩ id False.elim
    · rw [if_neg hgo] at hs
      obtain rfl := Option.some.inj hs
      exact gate_keep rfl ⟨rfl,rfl,rfl⟩ id False.elim
  | store i packets bytes =>
    rw [hpc] at hs hc
    obtain rfl := Option.some.inj hs
    by_cases hp : packets = 0
    · -- nothing was reclaimed, so `next_to_clean` is written back as it was
      obtain ⟨hi,-⟩ := hc
      rw [hp,cell_zero h.spans.clean_lt] at hi
      subst hi
      exact gate_keep rfl (.refl _) id False.elim
    · refine .owing .clean ?_
      simp [Adapter.gate,owedBy,CleanPc.Owes,hp]
  | flag packets bytes =>
    rw [hpc] at hs
    obtain rfl := Option.some.inj hs
    cases hq : s.adapter.queueStopped with
    | true => exact .owing .clean trivial
    | false => exact .opened (by simp [Adapter.gate,Adapter.count,hq])
  | roomClean =>
    rw [hpc] at hs
    obtain rfl := Option.some.inj hs
    exact .owing .clean trivial
  | roomUse clean =>
    rw [hpc] at hs hc
    obtain rfl := Option.some.inj hs
    obtain rfl : clean = s.adapter.txRing.nextToClean := hc
    by_cases hroom : txDescPerPkt ≤ s.adapter.txRing.unused
    · refine .owing .clean ?_
      rw [unused_eq] at hroom
      simp [Adapter.gate,owedBy,CleanPc.Owes,hroom]
    · exact .full hroom
  | wake =>
    rw [hpc] at hs
    obtain rfl := Option.some.inj hs
    exact .opened (by simp [Adapter.gate])

theorem step_gate {label : CpuLabel} (h : InUse s m) (hs : cpus.step s label = some t) :
    s.gate.Move t.gate := by
  cases label with
  | callXmit skb mapping =>
    obtain ⟨hidle,rfl⟩ := guarded_eq_some.mp hs
    refine gate_keep rfl (.refl _) (fun hx => ?_) id
    rw [hidle] at hx
    exact hx.elim
  | xmit => exact xmitStep_gate h hs
  | callClean =>
    obtain ⟨hidle,rfl⟩ := guarded_eq_some.mp hs
    refine gate_keep rfl (.refl _) id fun hc => ?_
    rw [hidle] at hc
    exact hc.elim
  | clean => exact cleanStep_gate h hs
  | done i =>
    obtain ⟨-,rfl⟩ := guarded_eq_some.mp hs
    refine gate_keep rfl ⟨rfl,rfl,rfl⟩ (fun hx => ?_) id
    exact hx

theorem cpus_gate (h : cpus.Reachable s) : s.gate.Safe := by
  refine h.gate_safe ?_ fun s label t hs _ hstep => ?_
  · rintro s ⟨tdh,tdt,rfl⟩ hclosed
    exact absurd hclosed (by simp [Cpus.gate,Adapter.gate,probed,Adapter.hwInitRings])
  · obtain ⟨m,hm⟩ := cpus_inUse hs
    exact step_gate hm hstep

/-! ### Whole calls -/

/-- The loop of edunic_clean_tx_irq as a run of its rounds. -/
theorem cleanLoop_run {fuel packets n : ℕ} {bytes k : UInt32} {j : ℕ} (xmit : XmitPc)
    (h : a.cleanLoop fuel i packets bytes = some (b,j,n,k)) :
    ∃ l, cpus.run (List.replicate l .clean) ⟨a,xmit,.loop i packets bytes⟩ =
      some ⟨b,xmit,.store j n k⟩ := by
  induction fuel generalizing a i packets bytes with
  | zero => contradiction
  | succ fuel ih =>
    rw [Adapter.cleanLoop] at h
    by_cases hgo : i ≠ a.txRing.nextToUse ∧ (a.txRing.desc i).done
    · rw [if_pos hgo] at h
      obtain ⟨l,hl⟩ := ih h
      refine ⟨l+1,?_⟩
      have hstep : cpus.step ⟨a,xmit,.loop i packets bytes⟩ .clean = some ⟨a.reclaim i,xmit,
          .loop (next i) (packets+1) (bytes+UInt32.ofNat (a.txRing.buf i).len)⟩ := if_pos hgo
      rw [List.replicate_succ,Machine.run_cons,hstep,Option.bind_some,hl]
    · rw [if_neg hgo] at h
      simp only [Option.some.injEq,Prod.mk.injEq] at h
      obtain ⟨rfl,rfl,rfl,rfl⟩ := h
      have hstep : cpus.step ⟨a,xmit,.loop i packets bytes⟩ .clean =
          some ⟨a,xmit,.store i packets bytes⟩ := if_neg hgo
      exact ⟨1,by rw [List.replicate_one,Machine.run_cons,hstep]; rfl⟩

/-- A call of edunic_clean_tx_irq whose steps come in a row is the function itself. -/
theorem cleanTxIrq_run {n : ℕ} (xmit : XmitPc) (h : a.cleanTxIrq = some (b,n)) :
    ∃ l, cpus.run (.callClean :: List.replicate l .clean) ⟨a,xmit,.idle⟩ =
      some ⟨b,xmit,.idle⟩ := by
  obtain ⟨⟨r,j,packets,bytes⟩,hr,h⟩ := Option.bind_eq_some_iff.mp h
  obtain ⟨l,hl⟩ := cleanLoop_run xmit hr
  have hend : ∃ k, cpus.run (List.replicate k .clean) ⟨r,xmit,.store j packets bytes⟩ =
      some ⟨b,xmit,.idle⟩ := by
    by_cases hp : packets = 0
    · simp only [hp,ne_eq,not_true_eq_false,if_false] at h
      obtain ⟨rfl,-⟩ := Prod.mk.inj (Option.some.inj h)
      exact ⟨1,by simp [cpus,Cpus.step,Cpus.cleanStep,hp,Adapter.cleanedTo]⟩
    · simp only [ne_eq,hp,not_false_eq_true,if_true] at h
      obtain ⟨rfl,-⟩ := Prod.mk.inj (Option.some.inj h)
      unfold Adapter.cleaned
      by_cases hq : r.queueStopped = true
      · by_cases hroom : txDescPerPkt ≤ unusedAt j r.txRing.nextToUse r.txRing.count
        · refine ⟨5,?_⟩
          simp [List.replicate_succ,cpus,Cpus.step,Cpus.cleanStep,hp,hq,hroom,unused_eq,
            Adapter.cleanedTo,Adapter.count]
        · refine ⟨4,?_⟩
          simp [List.replicate_succ,cpus,Cpus.step,Cpus.cleanStep,hp,hq,hroom,unused_eq,
            Adapter.cleanedTo,Adapter.count]
      · refine ⟨2,?_⟩
        simp [List.replicate_succ,cpus,Cpus.step,Cpus.cleanStep,hp,hq,Adapter.cleanedTo,
          Adapter.count]
  obtain ⟨k,hk⟩ := hend
  have hcall : cpus.step ⟨a,xmit,.idle⟩ .callClean =
      some ⟨a,xmit,.loop a.txRing.nextToClean 0 0⟩ := rfl
  refine ⟨l+k,?_⟩
  rw [Machine.run_cons,hcall,Option.bind_some,List.replicate_add,Machine.run_append,hl,
    Option.bind_some,hk]

/-- A call of edunic_maybe_stop_tx whose steps come in a row is the function itself, wherever the
call stands. -/
theorem maybeStopTx_run (during : Adapter → StopPc → Cpus) (after : Adapter → Bool → Cpus)
    (hgo : ∀ {a pc b pc'}, a.stopStep pc = (b,.inl pc') →
      cpus.step (during a pc) .xmit = some (during b pc'))
    (hreturn : ∀ {a pc b busy}, a.stopStep pc = (b,.inr busy) →
      cpus.step (during a pc) .xmit = some (after b busy)) (a : Adapter) :
    ∃ l, cpus.run (List.replicate l .xmit) (during a .testClean) =
      some (after (a.maybeStopTx txDescPerPkt).1 (a.maybeStopTx txDescPerPkt).2) := by
  have htest : cpus.step (during a .testClean) .xmit =
      some (during a (.testUse a.txRing.nextToClean)) := hgo rfl
  unfold Adapter.maybeStopTx
  by_cases hroom : txDescPerPkt ≤ a.txRing.unused
  · refine ⟨2,?_⟩
    rw [if_pos hroom]
    rw [unused_eq] at hroom
    have huse : cpus.step (during a (.testUse a.txRing.nextToClean)) .xmit =
        some (after a false) := hreturn (if_pos hroom)
    simp [List.replicate_succ,htest,huse]
  · refine ⟨5,?_⟩
    have hlow : { a with queueStopped := true }.txRing.unused < txDescPerPkt := Nat.not_le.mp hroom
    rw [if_neg hroom,if_pos hlow]
    rw [unused_eq] at hroom hlow
    have huse : cpus.step (during a (.testUse a.txRing.nextToClean)) .xmit =
        some (during a .stop) := hgo (if_neg hroom)
    have hstop : cpus.step (during a .stop) .xmit =
        some (during { a with queueStopped := true } .recheckClean) := hgo rfl
    have hagain : cpus.step (during { a with queueStopped := true } .recheckClean) .xmit =
        some (during { a with queueStopped := true } (.recheckUse a.txRing.nextToClean)) := hgo rfl
    have hfull : cpus.step
        (during { a with queueStopped := true } (.recheckUse a.txRing.nextToClean)) .xmit =
        some (after { a with queueStopped := true } true) := hreturn (if_pos hlow)
    simp [List.replicate_succ,htest,huse,hstop,hagain,hfull]

/-- The first edunic_maybe_stop_tx of a call. -/
theorem entry_run (a : Adapter) (clean : CleanPc) (skb : SkBuff) (mapping : Option UInt64) :
    ∃ l, cpus.run (List.replicate l .xmit) ⟨a,.entry .testClean skb mapping,clean⟩ =
      match a.maybeStopTx txDescPerPkt with
      | (b,true) => some ⟨b.note [.refused skb],.idle,clean⟩
      | (b,false) => some ⟨b,.fill skb mapping,clean⟩ := by
  obtain ⟨l,hl⟩ := maybeStopTx_run (fun a pc => ⟨a,.entry pc skb mapping,clean⟩)
    (fun a busy => if busy then ⟨a.note [.refused skb],.idle,clean⟩ else ⟨a,.fill skb mapping,clean⟩)
    (fun h => by simp [cpus,Cpus.step,Cpus.xmitStep,h])
    (fun {_ _ _ busy} h => by cases busy <;> simp [cpus,Cpus.step,Cpus.xmitStep,h]) a
  refine ⟨l,hl.trans ?_⟩
  rcases a.maybeStopTx txDescPerPkt with ⟨b,_ | _⟩ <;> rfl

/-- The second one. -/
theorem posted_run (a : Adapter) (clean : CleanPc) (skb : SkBuff) :
    ∃ l, cpus.run (List.replicate l .xmit) ⟨a,.posted .testClean skb,clean⟩ =
      some ⟨(a.maybeStopTx txDescPerPkt).1.note [.accepted skb],.idle,clean⟩ :=
  maybeStopTx_run (fun a pc => ⟨a,.posted pc skb,clean⟩)
    (fun a _ => ⟨a.note [.accepted skb],.idle,clean⟩)
    (fun h => by simp [cpus,Cpus.step,Cpus.xmitStep,h])
    (fun h => by simp [cpus,Cpus.step,Cpus.xmitStep,h]) a

/-- A call of edunic_start_xmit whose steps come in a row is the function itself. -/
theorem startXmit_run (a : Adapter) (clean : CleanPc) (skb : SkBuff) (mapping : Option UInt64) :
    ∃ l, cpus.run (.callXmit skb mapping :: List.replicate l .xmit) ⟨a,.idle,clean⟩ =
      some ⟨(a.startXmit skb mapping).1,.idle,clean⟩ := by
  have hcall : cpus.step ⟨a,.idle,clean⟩ (.callXmit skb mapping) =
      some ⟨a,.entry .testClean skb mapping,clean⟩ := rfl
  obtain ⟨l,hl⟩ := entry_run a clean skb mapping
  unfold Adapter.startXmit
  cases hstop : a.maybeStopTx txDescPerPkt with
  | mk b busy =>
    rw [hstop] at hl
    cases busy with
    | true =>
      refine ⟨l,?_⟩
      rw [Machine.run_cons,hcall,Option.bind_some,hl]
    | false =>
      cases mapping with
      | none =>
        refine ⟨l+1,?_⟩
        rw [Machine.run_cons,hcall,Option.bind_some,List.replicate_add,Machine.run_append,hl]
        rfl
      | some dma =>
        obtain ⟨k,hk⟩ := posted_run ((b.note [.map skb dma]).post skb dma).ringDoorbell.hwKickTx
          clean skb
        refine ⟨l+(3+k),?_⟩
        rw [Machine.run_cons,hcall,Option.bind_some,List.replicate_add,Machine.run_append,hl,
          Option.bind_some,List.replicate_add,Machine.run_append]
        exact hk

/-- The loop of edunic_clean_tx_irq ends after at most as many rounds as slots are in use, and
reclaims something when the first of them is done. -/
theorem cleanLoop_ends {fuel : ℕ} (hm : m < fuel) (hi : i < ringSize) (hbound : m < ringSize)
    (huse : a.txRing.nextToUse = cell ringSize i m) (packets : ℕ) (bytes : UInt32) :
    ∃ b k n, a.cleanLoop fuel i packets bytes = some (b,cell ringSize i k,packets+k,n) ∧ k ≤ m ∧
      SameIndices a.txRing b.txRing ∧
      (i ≠ a.txRing.nextToUse → (a.txRing.desc i).done = true → 0 < k) := by
  induction m generalizing a i fuel packets bytes with
  | zero =>
    obtain ⟨fuel,rfl⟩ : ∃ f, fuel = f+1 := ⟨fuel-1,by omega⟩
    have he : i = a.txRing.nextToUse := by rw [huse,cell_zero hi]
    refine ⟨a,0,bytes,?_,le_rfl,.refl _,fun hne => absurd he hne⟩
    rw [Adapter.cleanLoop,if_neg fun hgo => hgo.1 he,cell_zero hi]
    rfl
  | succ m ih =>
    obtain ⟨fuel,rfl⟩ : ∃ f, fuel = f+1 := ⟨fuel-1,by omega⟩
    by_cases hgo : i ≠ a.txRing.nextToUse ∧ (a.txRing.desc i).done
    · have hnext : (a.reclaim i).txRing.nextToUse = cell ringSize (next i) m := by
        change a.txRing.nextToUse = _
        rw [huse,next_eq,cell_cell,Nat.add_comm]
      have hlt : next i < ringSize := by
        rw [next_eq]
        exact cell_lt ringSize_pos
      obtain ⟨b,k,n,hrun,hk,hsame,-⟩ := ih (Nat.lt_of_succ_lt_succ hm) hlt
        (Nat.lt_of_succ_lt hbound) hnext (packets+1) (bytes+UInt32.ofNat (a.txRing.buf i).len)
      refine ⟨b,k+1,n,?_,by omega,hsame,fun _ _ => Nat.succ_pos k⟩
      rw [Adapter.cleanLoop,if_pos hgo,hrun,next_eq,cell_cell,Nat.add_comm 1 k,Nat.add_assoc,
        Nat.add_comm 1 k]
    · refine ⟨a,0,bytes,?_,Nat.zero_le _,.refl _,fun h1 h2 => absurd ⟨h1,h2⟩ hgo⟩
      rw [Adapter.cleanLoop,if_neg hgo,cell_zero hi]
      rfl

/-- edunic_clean_tx_irq restarts a stopped queue when the first packet in flight is done. -/
theorem cleanTxIrq_wakes (h : Spans a.txRing m) (hne : a.txRing.nextToClean ≠ a.txRing.nextToUse)
    (hdone : (a.txRing.desc a.txRing.nextToClean).done = true) :
    ∃ b n, a.cleanTxIrq = some (b,n) ∧ b.queueStopped = false := by
  obtain ⟨b,k,n,hrun,hk,⟨huse,-,hcount⟩,hpos⟩ :=
    cleanLoop_ends h.bound h.clean_lt h.bound h.use 0 0
  have hkpos := hpos hne hdone
  have hbound := h.bound
  rw [Nat.zero_add] at hrun
  have hspans : Spans (b.cleanedTo (cell ringSize a.txRing.nextToClean k)).txRing (m-k) := by
    refine ⟨by omega,by rw [← h.count]; exact hcount,cell_lt ringSize_pos,?_⟩
    change b.txRing.nextToUse = _
    rw [huse,h.use]
    change _ = cell ringSize (cell ringSize _ k) (m-k)
    rw [cell_cell,Nat.add_sub_cancel' hk]
  have hroom := hspans.room_iff.mpr (by omega)
  have hout : a.cleanTxIrq =
      some ((b.cleanedTo (cell ringSize a.txRing.nextToClean k)).cleaned k n,k) := by
    simp only [Adapter.cleanTxIrq,hrun,Option.bind_eq_bind,Option.bind_some]
    rw [if_pos hkpos.ne']
    rfl
  refine ⟨_,_,hout,?_⟩
  unfold Adapter.cleaned
  by_cases hq : b.queueStopped = true
  · rw [if_pos ⟨hq,hroom⟩]
  · rw [if_neg fun hc => hq hc.1]
    have hopen : b.queueStopped = false := by simpa using hq
    exact hopen

/-! ### No lost wake-up -/

namespace Cpus

/-- Neither function is in the middle of a call. -/
def quiet (s : Cpus) : Prop := s.xmit = .idle ∧ s.clean = .idle

end Cpus

/-- Between calls: a stopped queue means a full ring, with a packet still to be reclaimed, and
the next edunic_clean_tx_irq that finds the first packet done restarts the queue. -/
structure WakeSound (s : Cpus) : Prop where
  full : s.adapter.queueStopped = true → s.adapter.txRing.unused = 0
  waiting : s.adapter.queueStopped = true →
    s.adapter.txRing.nextToClean ≠ s.adapter.txRing.nextToUse
  wakes : s.adapter.queueStopped = true →
    (s.adapter.txRing.desc s.adapter.txRing.nextToClean).done = true → ∃ l t,
      cpus.run (.callClean :: List.replicate l .clean) s = some t ∧ t.quiet ∧
        t.adapter.queueStopped = false

/-- No wake-up of the queue of edunic is lost, in any interleaving of transmissions on one CPU,
reclaiming on another and completions. -/
theorem stopped_full (h : cpus.Reachable s) (hquiet : s.quiet) : WakeSound s := by
  obtain ⟨m,hm⟩ := cpus_inUse h
  have hbound := hm.spans.bound
  have hnone : ∀ p, ¬ s.gate.owes p := by
    intro p
    cases p with
    | xmit => simp [Cpus.gate,Adapter.gate,owedBy,hquiet.1,XmitPc.Owes]
    | clean => simp [Cpus.gate,Adapter.gate,owedBy,hquiet.2,CleanPc.Owes]
  have hfull : s.adapter.queueStopped = true → m+1 = ringSize := by
    intro hstopped
    have hroom := (cpus_gate h).full hnone hstopped
    have hlt : ¬ m+1 < ringSize := fun hlt => hroom (hm.spans.room_iff.mpr hlt)
    omega
  have hne : s.adapter.queueStopped = true →
      s.adapter.txRing.nextToClean ≠ s.adapter.txRing.nextToUse := by
    intro hstopped he
    have hm0 := hm.spans.empty_iff.mp he
    have hsize := hfull hstopped
    rw [hm0] at hsize
    contradiction
  refine ⟨fun hstopped => ?_,hne,fun hstopped hdone => ?_⟩
  · rw [hm.spans.unused,← hfull hstopped]
    omega
  · obtain ⟨b,n,hb,hopen⟩ := cleanTxIrq_wakes hm.spans (hne hstopped) hdone
    obtain ⟨l,hl⟩ := cleanTxIrq_run s.xmit hb
    rw [← hquiet.2] at hl
    exact ⟨l,_,hl,⟨hquiet.1,hquiet.2⟩,hopen⟩

/-- The steps of a call of edunic_start_xmit that posts an empty packet; `checks` of them are in
its second edunic_maybe_stop_tx. -/
def postCall (checks i : ℕ) : List CpuLabel :=
  .callXmit ⟨i,[]⟩ (some 4096) :: List.replicate (5+checks) .xmit

/-- The ring is filled. The last packet's second check finds no room; before it stops the queue
the first packet is completed and reclaimed by a call that finds the queue running; the second
look undoes the stop. Another packet fills the ring again and stops the queue. -/
def stopRace : List CpuLabel :=
  (List.range 255).flatMap (postCall 2) ++ [.done 0,.callClean,.clean,.clean,.clean,.clean] ++
    List.replicate 4 .xmit ++ postCall 5 255

theorem stopped_full_run : ∃ s, cpus.run stopRace ⟨probed emptyTxRing 0 0,.idle,.idle⟩ = some s ∧
    s.adapter.queueStopped = true ∧ WakeSound s := by
  have hrun : (cpus.run stopRace ⟨probed emptyTxRing 0 0,.idle,.idle⟩).map
      (fun s => (s.xmit,s.clean,s.adapter.queueStopped)) = some (.idle,.idle,true) := by
    decide +kernel
  obtain ⟨s,hs,hout⟩ := Option.map_eq_some_iff.mp hrun
  simp only [Prod.mk.injEq] at hout
  obtain ⟨hx,hc,hstopped⟩ := hout
  have hinit : cpus.Reachable ⟨probed emptyTxRing 0 0,.idle,.idle⟩ := .init ⟨0,0,rfl⟩
  have hreach := Machine.Reachable.of_run hinit hs
  exact ⟨s,hs,hstopped,stopped_full hreach ⟨hx,hc⟩⟩

end NetLab.Edunic
