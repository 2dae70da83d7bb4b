import Mathlib
import NetLab.Foundation.Gate
import NetLab.Foundation.Ring
import NetLab.SimpleNetdev.TxPath

/-! The network queue of simple_netdev with my_start_xmit on one CPU and my_tx_clean on another:
every read and write of `tx_head`, of `tx_clean` and of the queue's flag is a step of its own. -/
namespace NetLab.SimpleNetdev
open NetLab.Ring

/-- Where my_start_xmit is: in my_tx_ring_full before its two reads, before
netif_stop_queue, before the descriptor is filled, before `tx_head` is read and written, before
the doorbell. -/
inductive XmitPc
  | idle
  | fullHead (skb : SkBuff) (mapping : Option UInt64)
  | fullClean (next : ℕ) (skb : SkBuff) (mapping : Option UInt64)
  | stop (skb : SkBuff)
  | fill (skb : SkBuff) (mapping : Option UInt64)
  | readHead (skb : SkBuff)
  | writeHead (head : ℕ) (skb : SkBuff)
  | doorbell (skb : SkBuff)
deriving DecidableEq, Repr

/-- Where my_tx_clean is: before the two reads of its loop's condition, before the descriptor is
looked at, before `tx_clean` is read and written, before the queue's flag is read, in
my_tx_ring_full before its two reads, before netif_wake_queue. -/
inductive CleanPc
  | idle
  | loopClean
  | loopHead (clean : ℕ)
  | desc
  | readClean
  | writeClean (clean : ℕ)
  | flag
  | fullHead
  | fullClean (next : ℕ)
  | wake
deriving DecidableEq, Repr

/-- The device and the two CPUs. -/
structure Cpus where
  priv : Priv
  xmit : XmitPc
  clean : CleanPc

namespace Cpus

/-- The next step of my_start_xmit. -/
def xmitStep (s : Cpus) : Option Cpus :=
  match s.xmit with
  | .idle => none
  | .fullHead skb mapping => some { s with xmit := .fullClean (next s.priv.txHead) skb mapping }
  | .fullClean n skb mapping =>
    some { s with xmit := if n = s.priv.txClean then .stop skb else .fill skb mapping }
  | .stop skb =>
    some { s with priv := { s.priv with queueStopped := true }.note [.refused skb], xmit := .idle }
  | .fill skb none =>
    some { s with priv := (s.priv.mapFailed skb).note [.accepted skb], xmit := .idle }
  | .fill skb (some dma) => some { s with priv := s.priv.fill skb dma, xmit := .readHead skb }
  | .readHead skb => some { s with xmit := .writeHead s.priv.txHead skb }
  | .writeHead head skb =>
    some { s with priv := { s.priv with txHead := next head }, xmit := .doorbell skb }
  | .doorbell skb =>
    some { s with priv := s.priv.ringDoorbell.note [.accepted skb], xmit := .idle }

/-- The next step of my_tx_clean. -/
def cleanStep (s : Cpus) : Option Cpus :=
  match s.clean with
  | .idle => none
  | .loopClean => some { s with clean := .loopHead s.priv.txClean }
  | .loopHead clean => some { s with clean := if clean ≠ s.priv.txHead then .desc else .flag }
  | .desc =>
    if s.priv.reclaimable then some { s with priv := s.priv.reclaim, clean := .readClean }
    else some { s with clean := .flag }
  | .readClean => some { s with clean := .writeClean s.priv.txClean }
  | .writeClean clean =>
    some { s with priv := { s.priv with txClean := next clean }, clean := .loopClean }
  | .flag => some { s with clean := if s.priv.queueStopped then .fullHead else .idle }
  | .fullHead => some { s with clean := .fullClean (next s.priv.txHead) }
  | .fullClean n => some { s with clean := if n = s.priv.txClean then .idle else .wake }
  | .wake => some { s with priv := { s.priv with queueStopped := false }, clean := .idle }

end Cpus

inductive CpuLabel
  | callXmit (skb : SkBuff) (mapping : Option UInt64)
  | xmit
  | callClean
  | clean
  | complete (i : ℕ)
deriving DecidableEq, Repr

/-- One step of either CPU, or of the device. Neither function is called while it runs. -/
def Cpus.step (s : Cpus) (label : CpuLabel) : Option Cpus :=
  match label with
  | .callXmit skb mapping =>
    if s.xmit = .idle then some { s with xmit := .fullHead skb mapping } else none
  | .xmit => s.xmitStep
  | .callClean => if s.clean = .idle then some { s with clean := .loopClean } else none
  | .clean => s.cleanStep
  | .complete i =>
    if i < txRingSize ∧ (s.priv.txRing i).ownedByHw then
      some { s with priv := s.priv.complete i }
    else none

/-- The two CPUs, from the allocation of the ring on. -/
def cpus : Machine Cpus CpuLabel where
  init s := ∃ txTail, (Priv.fresh txTail).allocTxDescRing true = some s.priv ∧
    s.xmit = .idle ∧ s.clean = .idle
  step := Cpus.step

/-! ### Indices -/

/-- What my_start_xmit knows of the `m` slots in use: it posts only where there is room. -/
def XmitPc.Knows (p : Priv) (m : ℕ) : XmitPc → Prop
  | .fullClean n _ _ => n = next p.txHead
  | .fill _ _ | .readHead _ => m+1 < txRingSize
  | .writeHead head _ => head = p.txHead ∧ m+1 < txRingSize
  | _ => True

/-- What my_tx_clean knows of them: it moves on only past a slot in use, and the head it has
read was one since its last reclaim. -/
def CleanPc.Knows (p : Priv) (m : ℕ) : CleanPc → Prop
  | .loopHead clean => clean = p.txClean
  | .desc | .readClean => 0 < m
  | .writeClean clean => clean = p.txClean ∧ 0 < m
  | .fullClean n => ∃ k ≤ m, n = cell txRingSize p.txClean (k+1)
  | _ => True

/-- The ring has `m` slots in use, and both CPUs know it. -/
structure InUse (s : Cpus) (m : ℕ) : Prop where
  bound : m < txRingSize
  clean_lt : s.priv.txClean < txRingSize
  head : s.priv.txHead = cell txRingSize s.priv.txClean m
  xmit : s.xmit.Knows s.priv m
  clean : s.clean.Knows s.priv m

variable {s t : Cpus} {m : ℕ}

namespace InUse

theorem next_head (h : InUse s m) :
    next s.priv.txHead = cell txRingSize s.priv.txClean (m+1) := by
  rw [h.head,next_cell]

theorem full_iff (h : InUse s m) : s.priv.txRingFull = true ↔ m+1 = txRingSize := by
  have hbound := h.bound
  have hclean := h.clean_lt
  rw [Priv.txRingFull,beq_iff_eq,h.next_head]
  simp only [cell,txRingSize] at *
  omega

theorem empty_iff (h : InUse s m) : s.priv.txClean = s.priv.txHead ↔ m = 0 := by
  have hbound := h.bound
  have hclean := h.clean_lt
  rw [h.head]
  simp only [cell,txRingSize] at *
  omega

/-- A step that leaves the indices alone. -/
theorem keep (h : InUse s m) (hhead : t.priv.txHead = s.priv.txHead)
    (hclean : t.priv.txClean = s.priv.txClean) (hx : t.xmit.Knows t.priv m)
    (hc : t.clean.Knows t.priv m) : InUse t m :=
  ⟨h.bound,by rw [hclean]; exact h.clean_lt,by rw [hhead,hclean]; exact h.head,hx,hc⟩

end InUse

/-- Neither CPU's knowledge depends on more than the indices. -/
theorem XmitPc.Knows.congr {p q : Priv} {pc : XmitPc} (h : pc.Knows p m)
    (hhead : q.txHead = p.txHead) : pc.Knows q m := by
  cases pc <;> simp_all [XmitPc.Knows]

theorem CleanPc.Knows.congr {p q : Priv} {pc : CleanPc} (h : pc.Knows p m)
    (hclean : q.txClean = p.txClean) : pc.Knows q m := by
  cases pc <;> simp_all [CleanPc.Knows]

/-- my_start_xmit uses at most one more slot, and only when there is one. -/
theorem xmitStep_inUse (h : InUse s m) (hs : s.xmitStep = some t) : ∃ m', InUse t m' := by
  have hx := h.xmit
  have hbound := h.bound
  unfold Cpus.xmitStep at hs
  cases hpc : s.xmit with
  | idle => simp [hpc] at hs
  | fullHead skb mapping =>
    rw [hpc] at hs
    rw [← Option.some.inj hs]
    exact ⟨m,h.keep rfl rfl rfl h.clean⟩
  | fullClean n skb mapping =>
    rw [hpc] at hs hx
    rw [← Option.some.inj hs]
    refine ⟨m,h.keep rfl rfl ?_ h.clean⟩
    by_cases he : n = s.priv.txClean
    · simp only [he,if_true]
      trivial
    · simp only [he,if_false]
      have hnot : ¬ m+1 = txRingSize := fun hm => he (by
        rw [hx]
        exact beq_iff_eq.mp (h.full_iff.mpr hm))
      exact lt_of_le_of_ne hbound hnot
  | stop skb =>
    rw [hpc] at hs
    rw [← Option.some.inj hs]
    exact ⟨m,h.keep rfl rfl trivial (h.clean.congr rfl)⟩
  | fill skb mapping =>
    rw [hpc] at hs hx
    cases mapping with
    | none =>
      rw [← Option.some.inj hs]
      exact ⟨m,h.keep rfl rfl trivial (h.clean.congr rfl)⟩
    | some dma =>
      rw [← Option.some.inj hs]
      exact ⟨m,h.keep rfl rfl hx (h.clean.congr rfl)⟩
  | readHead skb =>
    rw [hpc] at hs hx
    rw [← Option.some.inj hs]
    exact ⟨m,h.keep rfl rfl ⟨rfl,hx⟩ h.clean⟩
  | writeHead head skb =>
    rw [hpc] at hs hx
    rw [← Option.some.inj hs]
    obtain ⟨rfl,hm⟩ := hx
    refine ⟨m+1,hm,h.clean_lt,h.next_head,trivial,?_⟩
    have hc := h.clean
    cases hpc' : s.clean with
    | fullClean n =>
      rw [hpc'] at hc
      obtain ⟨k,hk,hn⟩ := hc
      exact ⟨k,by omega,hn⟩
    | desc => exact Nat.succ_pos m
    | readClean => exact Nat.succ_pos m
    | writeClean clean =>
      rw [hpc'] at hc
      exact ⟨hc.1,Nat.succ_pos m⟩
    | loopHead clean =>
      rw [hpc'] at hc
      exact hc
    | idle | loopClean | flag | fullHead | wake => trivial
  | doorbell skb =>
    rw [hpc] at hs
    rw [← Option.some.inj hs]
    exact ⟨m,h.keep rfl rfl trivial (h.clean.congr rfl)⟩

/-- my_tx_clean frees at most one slot, and only one that is in use. -/
theorem cleanStep_inUse (h : InUse s m) (hs : s.cleanStep = some t) : ∃ m', InUse t m' := by
  have hc := h.clean
  have hbound := h.bound
  unfold Cpus.cleanStep at hs
  cases hpc : s.clean with
  | idle => simp [hpc] at hs
  | loopClean =>
    rw [hpc] at hs
    rw [← Option.some.inj hs]
    exact ⟨m,h.keep rfl rfl h.xmit rfl⟩
  | loopHead clean =>
    rw [hpc] at hs hc
    rw [← Option.some.inj hs]
    refine ⟨m,h.keep rfl rfl h.xmit ?_⟩
    by_cases he : clean = s.priv.txHead
    · simp only [he,ne_eq,not_true_eq_false,if_false]
      trivial
    · simp only [ne_eq,he,not_false_eq_true,if_true]
      refine Nat.pos_of_ne_zero fun hm => he ?_
      rw [hc]
      exact h.empty_iff.mpr hm
  | desc =>
    rw [hpc] at hs hc
    by_cases hr : s.priv.reclaimable = true
    · rw [if_pos hr] at hs
      rw [← Option.some.inj hs]
      exact ⟨m,h.keep rfl rfl (h.xmit.congr rfl) hc⟩
    · rw [if_neg hr] at hs
      rw [← Option.some.inj hs]
      exact ⟨m,h.keep rfl rfl h.xmit trivial⟩
  | readClean =>
    rw [hpc] at hs hc
    rw [← Option.some.inj hs]
    exact ⟨m,h.keep rfl rfl h.xmit ⟨rfl,hc⟩⟩
  | writeClean clean =>
    rw [hpc] at hs hc
    rw [← Option.some.inj hs]
    obtain ⟨rfl,hm⟩ := hc
    obtain ⟨j,rfl⟩ : ∃ j, m = j+1 := ⟨m-1,by omega⟩
    refine ⟨j,by omega,cell_lt txRingSize_pos,?_,?_,trivial⟩
    · change s.priv.txHead = cell txRingSize (next s.priv.txClean) j
      rw [h.head,next_eq,cell_cell,Nat.add_comm]
    · have hx := h.xmit
      cases hpc' : s.xmit with
      | fullClean n skb mapping =>
        rw [hpc'] at hx
        exact hx
      | fill skb mapping =>
        rw [hpc'] at hx
        exact Nat.lt_of_succ_lt hx
      | readHead skb =>
        rw [hpc'] at hx
        exact Nat.lt_of_succ_lt hx
      | writeHead head skb =>
        rw [hpc'] at hx
        exact ⟨hx.1,Nat.lt_of_succ_lt hx.2⟩
      | idle => trivial
      | fullHead skb mapping => trivial
      | stop skb => trivial
      | doorbell skb => trivial
  | flag =>
    rw [hpc] at hs
    rw [← Option.some.inj hs]
    refine ⟨m,h.keep rfl rfl h.xmit ?_⟩
    cases s.priv.queueStopped <;> trivial
  | fullHead =>
    rw [hpc] at hs
    rw [← Option.some.inj hs]
    exact ⟨m,h.keep rfl rfl h.xmit ⟨m,le_rfl,h.next_head⟩⟩
  | fullClean n =>
    rw [hpc] at hs
    rw [← Option.some.inj hs]
    refine ⟨m,h.keep rfl rfl h.xmit ?_⟩
    by_cases he : n = s.priv.txClean <;> simp only [he,if_true,if_false] <;> trivial
  | wake =>
    rw [hpc] at hs
    rw [← Option.some.inj hs]
    exact ⟨m,h.keep rfl rfl (h.xmit.congr rfl) trivial⟩

theorem step_inUse {label : CpuLabel} (h : InUse s m) (hs : cpus.step s label = some t) :
    ∃ m', InUse t m' := by
  cases label with
  | callXmit skb mapping =>
    obtain ⟨-,rfl⟩ := guarded_eq_some.mp hs
    exact ⟨m,h.keep rfl rfl trivial h.clean⟩
  | xmit => exact xmitStep_inUse h hs
  | callClean =>
    obtain ⟨-,rfl⟩ := guarded_eq_some.mp hs
    exact ⟨m,h.keep rfl rfl h.xmit trivial⟩
  | clean => exact cleanStep_inUse h hs
  | complete i =>
    obtain ⟨-,rfl⟩ := guarded_eq_some.mp hs
    exact ⟨m,h.keep rfl rfl (h.xmit.congr rfl) (h.clean.congr rfl)⟩

theorem cpus_inUse (h : cpus.Reachable s) : ∃ m, InUse s m := by
  have hstep : ∀ s label t, cpus.Reachable s → (∃ m, InUse s m) → True →
      cpus.step s label = some t → ∃ m, InUse t m := by
    rintro s label t - ⟨m,hi⟩ - hs
    exact step_inUse hi hs
  refine h.invariant ?_ hstep
  rintro ⟨p,xmit,clean⟩ ⟨txTail,hp,rfl,rfl⟩
  obtain rfl := Option.some.inj hp
  exact ⟨0,txRingSize_pos,txRingSize_pos,rfl,trivial,trivial⟩

/-! ### The queue as a gate -/

namespace Cpus

/-- my_tx_clean has still to look whether the queue is stopped with room in the ring, or has
found it so. -/
def willWake (s : Cpus) : Prop :=
  match s.clean with
  | .idle => False
  | .fullClean n => n ≠ s.priv.txClean
  | _ => True

/-- The queue is closed when it is stopped; only my_tx_clean looks at it again. -/
def gate (s : Cpus) : Gate Unit :=
  ⟨s.priv.queueStopped = true,s.priv.txRingFull = false,fun _ => s.willWake⟩

/-- The next step of my_start_xmit is netif_stop_queue. -/
def stops (s : Cpus) : Bool :=
  match s.xmit with
  | .stop _ => true
  | _ => false

/-- The queue is stopped in time: when my_start_xmit calls netif_stop_queue the ring it has
found full still is, or a call of my_tx_clean has not returned yet. -/
def stopsInTime (s : Cpus) (label : CpuLabel) : Prop :=
  label = .xmit → s.stops = true → s.priv.txRingFull = true ∨ s.clean ≠ .idle

instance (s : Cpus) (label : CpuLabel) : Decidable (s.stopsInTime label) :=
  inferInstanceAs (Decidable (_ → _ → _))

/-- Neither function is in the middle of a call. -/
def quiet (s : Cpus) : Prop := s.xmit = .idle ∧ s.clean = .idle

end Cpus

theorem InUse.room_iff (h : InUse s m) : s.priv.txRingFull = false ↔ m+1 < txRingSize := by
  have hbound := h.bound
  rw [Bool.eq_false_iff,ne_eq,h.full_iff]
  omega

/-- my_tx_clean at its last test knows whether the ring is full. -/
theorem InUse.willWake (h : InUse s m) (hroom : s.priv.txRingFull = false)
    (hrun : s.clean ≠ .idle) : s.willWake := by
  have hc := h.clean
  rw [h.room_iff] at hroom
  unfold Cpus.willWake
  cases hpc : s.clean with
  | idle => exact absurd hpc hrun
  | fullClean n =>
    rw [hpc] at hc
    obtain ⟨k,hk,rfl⟩ := hc
    have hclean := h.clean_lt
    simp only [cell,txRingSize] at *
    omega
  | loopClean | loopHead _ | desc | readClean | writeClean _ | flag | fullHead | wake => trivial

/-- A step that leaves the queue's flag, the indices and my_tx_clean alone. -/
theorem Cpus.gate_keep (hstopped : t.priv.queueStopped = s.priv.queueStopped)
    (hhead : t.priv.txHead = s.priv.txHead) (hclean : t.priv.txClean = s.priv.txClean)
    (hpc : t.clean = s.clean) : s.gate.Move t.gate := by
  have hgate : t.gate = s.gate := by
    simp only [gate,willWake,Priv.txRingFull,hstopped,hhead,hclean,hpc]
  rw [hgate]
  exact .refl _

theorem xmitStep_gate (h : InUse s m) (hok : s.stopsInTime .xmit) (hs : s.xmitStep = some t) :
    s.gate.Move t.gate := by
  have hx := h.xmit
  have htime := hok rfl
  unfold Cpus.stops at htime
  unfold Cpus.xmitStep at hs
  cases hpc : s.xmit with
  | idle => simp [hpc] at hs
  | fullHead skb mapping =>
    rw [hpc] at hs
    rw [← Option.some.inj hs]
    exact Cpus.gate_keep rfl rfl rfl rfl
  | fullClean n skb mapping =>
    rw [hpc] at hs
    rw [← Option.some.inj hs]
    exact Cpus.gate_keep rfl rfl rfl rfl
  | stop skb =>
    rw [hpc] at hs htime
    rw [← Option.some.inj hs]
    by_cases hfull : s.priv.txRingFull = true
    · refine .full fun hroom => ?_
      change s.priv.txRingFull = false at hroom
      rw [hfull] at hroom
      contradiction
    · have hrun := (htime rfl).resolve_left hfull
      exact .owing () (h.willWake (by simpa using hfull) hrun)
  | fill skb mapping =>
    rw [hpc] at hs
    cases mapping <;> rw [← Option.some.inj hs] <;> exact Cpus.gate_keep rfl rfl rfl rfl
  | readHead skb =>
    rw [hpc] at hs
    rw [← Option.some.inj hs]
    exact Cpus.gate_keep rfl rfl rfl rfl
  | writeHead head skb =>
    rw [hpc] at hs hx
    rw [← Option.some.inj hs]
    exact .keep id (fun _ => h.room_iff.mpr hx.2) fun _ => id
  | doorbell skb =>
    rw [hpc] at hs
    rw [← Option.some.inj hs]
    exact Cpus.gate_keep rfl rfl rfl rfl

theorem cleanStep_gate (h : InUse s m) (hs : s.cleanStep = some t) : s.gate.Move t.gate := by
  unfold Cpus.cleanStep at hs
  cases hpc : s.clean with
  | idle => simp [hpc] at hs
  | loopClean =>
    rw [hpc] at hs
    rw [← Option.some.inj hs]
    exact .owing () trivial
  | loopHead clean =>
    rw [hpc] at hs
    rw [← Option.some.inj hs]
    refine .owing () ?_
    by_cases he : clean = s.priv.txHead <;> simp [Cpus.gate,Cpus.willWake,he]
  | desc =>
    rw [hpc] at hs
    by_cases hr : s.priv.reclaimable = true
    · rw [if_pos hr] at hs
      rw [← Option.some.inj hs]
      exact .owing () trivial
    · rw [if_neg hr] at hs
      rw [← Option.some.inj hs]
      exact .owing () trivial
  | readClean =>
    rw [hpc] at hs
    rw [← Option.some.inj hs]
    exact .owing () trivial
  | writeClean clean =>
    rw [hpc] at hs
    rw [← Option.some.inj hs]
    exact .owing () trivial
  | flag =>
    rw [hpc] at hs
    rw [← Option.some.inj hs]
    cases hq : s.priv.queueStopped with
    | true => exact .owing () trivial
    | false =>
      refine .opened ?_
      simp [Cpus.gate,hq]
  | fullHead =>
    rw [hpc] at hs
    rw [← Option.some.inj hs]
    cases hfull : s.priv.txRingFull with
    | true =>
      refine .full ?_
      simpa [Cpus.gate] using hfull
    | false =>
      have hnext : next s.priv.txHead ≠ s.priv.txClean := by
        simpa [Priv.txRingFull] using hfull
      exact .owing () hnext
  | fullClean n =>
    have hwake : s.priv.txRingFull = false → s.willWake :=
      fun hroom => h.willWake hroom (by simp [hpc])
    unfold Cpus.willWake at hwake
    rw [hpc] at hs hwake
    rw [← Option.some.inj hs]
    by_cases he : n = s.priv.txClean
    · refine .full fun hroom => ?_
      exact hwake hroom he
    · refine .owing () ?_
      simp [Cpus.gate,Cpus.willWake,he]
  | wake =>
    rw [hpc] at hs
    rw [← Option.some.inj hs]
    exact .opened (by simp [Cpus.gate])

theorem step_gate {label : CpuLabel} (h : InUse s m) (hok : s.stopsInTime label)
    (hs : cpus.step s label = some t) : s.gate.Move t.gate := by
  cases label with
  | callXmit skb mapping =>
    obtain ⟨-,rfl⟩ := guarded_eq_some.mp hs
    exact Cpus.gate_keep rfl rfl rfl rfl
  | xmit => exact xmitStep_gate h hok hs
  | callClean =>
    obtain ⟨-,rfl⟩ := guarded_eq_some.mp hs
    exact .owing () trivial
  | clean => exact cleanStep_gate h hs
  | complete i =>
    obtain ⟨-,rfl⟩ := guarded_eq_some.mp hs
    exact Cpus.gate_keep rfl rfl rfl rfl

theorem cpus_gate (h : cpus.ReachableUnder Cpus.stopsInTime s) : s.gate.Safe := by
  refine h.gate_safe ?_ fun s label t hs hok hstep => ?_
  · rintro ⟨p,xmit,clean⟩ ⟨txTail,hp,rfl,rfl⟩ hclosed
    obtain rfl := Option.some.inj hp
    simp [Cpus.gate,Priv.fresh] at hclosed
  · obtain ⟨m,hm⟩ := cpus_inUse hs.reachable
    exact step_gate hm hok hstep

/-! ### Whole calls -/

variable {p q : Priv} {fuel : ℕ}

theorem cleanLoop_run (xmit : XmitPc) (h : p.cleanLoop fuel = some q) :
    ∃ n, cpus.run (List.replicate n .clean) ⟨p,xmit,.loopClean⟩ = some ⟨q,xmit,.flag⟩ := by
  induction fuel generalizing p with
  | zero => contradiction
  | succ fuel ih =>
    rw [Priv.cleanLoop] at h
    by_cases he : p.txClean = p.txHead
    · rw [if_neg fun hgo => hgo.1 he] at h
      obtain rfl := Option.some.inj h
      exact ⟨2,by simp [List.replicate_succ,cpus,Cpus.step,Cpus.cleanStep,he]⟩
    · by_cases hr : p.reclaimable = true
      · rw [if_pos ⟨he,hr⟩] at h
        obtain ⟨n,hn⟩ := ih h
        refine ⟨n+5,?_⟩
        rw [← hn]
        simp [List.replicate_succ,cpus,Cpus.step,Cpus.cleanStep,he,hr]
        rfl
      · rw [if_neg fun hgo => hr hgo.2] at h
        obtain rfl := Option.some.inj h
        exact ⟨3,by simp [List.replicate_succ,cpus,Cpus.step,Cpus.cleanStep,he,hr]⟩

/-- A call of my_tx_clean whose steps come in a row is the function my_tx_clean. -/
theorem cleanTx_run (xmit : XmitPc) (h : p.cleanTx = some q) :
    ∃ n, cpus.run (.callClean :: List.replicate n .clean) ⟨p,xmit,.idle⟩ =
      some ⟨q,xmit,.idle⟩ := by
  obtain ⟨r,hr,rfl⟩ := Option.map_eq_some_iff.mp h
  obtain ⟨n,hn⟩ := cleanLoop_run xmit hr
  have hend : ∃ k, cpus.run (List.replicate k .clean) ⟨r,xmit,.flag⟩ =
      some ⟨r.wake,xmit,.idle⟩ := by
    unfold Priv.wake Priv.txRingFull
    by_cases hq : r.queueStopped = true
    · by_cases hf : next r.txHead = r.txClean
      · exact ⟨3,by simp [List.replicate_succ,cpus,Cpus.step,Cpus.cleanStep,hq,hf]⟩
      · exact ⟨4,by simp [List.replicate_succ,cpus,Cpus.step,Cpus.cleanStep,hq,hf]⟩
    · exact ⟨1,by simp [List.replicate_succ,cpus,Cpus.step,Cpus.cleanStep,hq]⟩
  obtain ⟨k,hk⟩ := hend
  refine ⟨n+k,?_⟩
  have hcall : cpus.step ⟨p,xmit,.idle⟩ .callClean = some ⟨p,xmit,.loopClean⟩ := rfl
  rw [Machine.run_cons,hcall,Option.bind_some,List.replicate_add,Machine.run_append,hn,
    Option.bind_some,hk]

/-- A call of my_start_xmit whose steps come in a row is the function my_start_xmit. -/
theorem startXmit_run (p : Priv) (clean : CleanPc) (skb : SkBuff) (mapping : Option UInt64) :
    ∃ n, cpus.run (.callXmit skb mapping :: List.replicate n .xmit) ⟨p,.idle,clean⟩ =
      some ⟨(p.startXmit skb mapping).1,.idle,clean⟩ := by
  unfold Priv.startXmit Priv.txRingFull
  by_cases hfull : next p.txHead = p.txClean
  · exact ⟨3,by simp [List.replicate_succ,cpus,Cpus.step,Cpus.xmitStep,hfull]⟩
  · cases mapping with
    | none => exact ⟨3,by simp [List.replicate_succ,cpus,Cpus.step,Cpus.xmitStep,hfull]⟩
    | some dma =>
      refine ⟨6,?_⟩
      simp [List.replicate_succ,cpus,Cpus.step,Cpus.xmitStep,hfull]
      rfl

/-- The loop of my_tx_clean ends, and makes room when the first packet in flight is done. -/
theorem cleanLoop_room (hm : m < fuel) (hclean : p.txClean < txRingSize)
    (hhead : p.txHead = cell txRingSize p.txClean m) (hbound : m < txRingSize) :
    ∃ q m', p.cleanLoop fuel = some q ∧ q.queueStopped = p.queueStopped ∧
      q.txClean < txRingSize ∧ q.txHead = cell txRingSize q.txClean m' ∧ m' ≤ m ∧
      (p.txClean ≠ p.txHead → p.reclaimable = true → m' < m) := by
  induction m generalizing p fuel with
  | zero =>
    have he : p.txClean = p.txHead := by rw [hhead,cell_zero hclean]
    obtain ⟨fuel,rfl⟩ : ∃ n, fuel = n+1 := ⟨fuel-1,by omega⟩
    refine ⟨p,0,?_,rfl,hclean,hhead,le_rfl,fun hne => absurd he hne⟩
    rw [Priv.cleanLoop,if_neg fun hgo => hgo.1 he]
  | succ m ih =>
    obtain ⟨fuel,rfl⟩ : ∃ n, fuel = n+1 := ⟨fuel-1,by omega⟩
    by_cases hgo : p.txClean ≠ p.txHead ∧ p.reclaimable = true
    · have hstep : p.reclaim.advanceClean.txHead =
          cell txRingSize p.reclaim.advanceClean.txClean m := by
        change p.txHead = cell txRingSize (next p.txClean) m
        rw [hhead,next_eq,cell_cell,Nat.add_comm]
      obtain ⟨q,m',hq,hstopped,hlt,hcell,hle,-⟩ := ih (p := p.reclaim.advanceClean)
        (Nat.lt_of_succ_lt_succ hm) (cell_lt txRingSize_pos) hstep (Nat.lt_of_succ_lt hbound)
      refine ⟨q,m',?_,hstopped,hlt,hcell,by omega,fun _ _ => by omega⟩
      rw [Priv.cleanLoop,if_pos hgo,hq]
    · refine ⟨p,m+1,?_,rfl,hclean,hhead,le_rfl,fun h1 h2 => absurd ⟨h1,h2⟩ hgo⟩
      rw [Priv.cleanLoop,if_neg hgo]

/-- my_tx_clean restarts a stopped queue when the first packet in flight is done. -/
theorem cleanTx_wakes (h : InUse s m) (hne : s.priv.txClean ≠ s.priv.txHead)
    (hdone : s.priv.reclaimable = true) : ∃ q, s.priv.cleanTx = some q ∧ q.queueStopped = false := by
  obtain ⟨q,m',hq,hstopped,hlt,hcell,hle,hless⟩ :=
    cleanLoop_room h.bound h.clean_lt h.head h.bound
  have hm' := hless hne hdone
  have hbound := h.bound
  refine ⟨q.wake,by rw [Priv.cleanTx,hq]; rfl,?_⟩
  have hroom : q.txRingFull = false := by
    rw [Priv.txRingFull,beq_eq_false_iff_ne,hcell,next_cell]
    nth_rewrite 2 [← cell_zero hlt]
    rw [ne_eq,cell_inj (by omega) txRingSize_pos]
    omega
  unfold Priv.wake
  by_cases hq : q.queueStopped = true
  · rw [if_pos (by simp [hq,hroom])]
  · rw [if_neg (by simp [hq])]
    simpa using hq

/-- Between calls: a stopped queue means a full ring, and then the next my_tx_clean that finds
the first packet done restarts the queue. -/
structure WakeSound (s : Cpus) : Prop where
  full : s.priv.queueStopped = true → s.priv.txRingFull = true ∧ s.priv.inFlight = 63
  wakes : s.priv.queueStopped = true → s.priv.reclaimable = true → ∃ n t,
    cpus.run (.callClean :: List.replicate n .clean) s = some t ∧ t.quiet ∧
      t.priv.queueStopped = false

theorem InUse.inFlight_eq (h : InUse s m) : s.priv.inFlight = m := by
  have hclean := h.clean_lt
  have hbound := h.bound
  have hhead := h.head
  rw [Priv.inFlight]
  simp only [cell,txRingSize] at *
  omega

theorem wakeSound (h : InUse s m) (hsafe : s.gate.Safe) (hquiet : s.quiet) : WakeSound s := by
  have hfull : s.priv.queueStopped = true → s.priv.txRingFull = true := by
    intro hstopped
    have hnone : ∀ u, ¬ s.gate.owes u := fun _ => by
      simp [Cpus.gate,Cpus.willWake,hquiet.2]
    simpa [Cpus.gate] using hsafe.full hnone hstopped
  constructor
  · intro hstopped
    have hm := h.full_iff.mp (hfull hstopped)
    refine ⟨hfull hstopped,?_⟩
    rw [h.inFlight_eq]
    exact Nat.succ.inj hm
  · intro hstopped hdone
    have hm := h.full_iff.mp (hfull hstopped)
    have hne : s.priv.txClean ≠ s.priv.txHead := by
      rw [ne_eq,h.empty_iff]
      rintro rfl
      contradiction
    obtain ⟨q,hq,hopen⟩ := cleanTx_wakes h hne hdone
    obtain ⟨n,hn⟩ := cleanTx_run s.xmit hq
    rw [← hquiet.2] at hn
    exact ⟨n,_,hn,⟨hquiet.1,hquiet.2⟩,hopen⟩

/-- A stop that is not in time leaves the queue stopped with room in the ring and nobody to
look at it again. -/
theorem late_stop {label : CpuLabel} (hlate : ¬ s.stopsInTime label)
    (hs : cpus.step s label = some t) :
    t.quiet ∧ t.priv.queueStopped = true ∧ t.priv.txRingFull = false := by
  unfold Cpus.stopsInTime Cpus.stops at hlate
  push Not at hlate
  obtain ⟨rfl,hstops,hroom,hclean⟩ := hlate
  change s.xmitStep = some t at hs
  unfold Cpus.xmitStep at hs
  cases hpc : s.xmit with
  | stop skb =>
    rw [hpc] at hs
    obtain rfl := Option.some.inj hs
    have hroom' : s.priv.txRingFull = false := by simpa using hroom
    exact ⟨⟨rfl,hclean⟩,rfl,hroom'⟩
  | idle => simp [hpc] at hstops
  | fullHead _ _ => simp [hpc] at hstops
  | fullClean _ _ _ => simp [hpc] at hstops
  | fill _ _ => simp [hpc] at hstops
  | readHead _ => simp [hpc] at hstops
  | writeHead _ _ => simp [hpc] at hstops
  | doorbell _ => simp [hpc] at hstops

/-- The queue of simple_netdev is stopped between calls only while its ring is full, in every run
in which each stop is in time; and a stop that is not in time breaks this at once. -/
theorem stopped_full_in_time (s : Cpus) :
    (cpus.ReachableUnder Cpus.stopsInTime s → s.quiet → WakeSound s) ∧
    ∀ label t, cpus.Reachable s → ¬ s.stopsInTime label → cpus.step s label = some t →
      t.quiet ∧ ¬ WakeSound t := by
  constructor
  · intro h hquiet
    obtain ⟨m,hm⟩ := cpus_inUse h.reachable
    exact wakeSound hm (cpus_gate h) hquiet
  · intro label t _ hlate hs
    obtain ⟨hquiet,hstopped,hroom⟩ := late_stop hlate hs
    refine ⟨hquiet,fun hsound => ?_⟩
    rw [(hsound.full hstopped).1] at hroom
    contradiction

/-- The steps of a call of my_start_xmit that posts an empty packet. -/
def postCall (i : ℕ) : List CpuLabel :=
  .callXmit ⟨i,[]⟩ (some 4096) :: List.replicate 6 .xmit

/-- The two CPUs before the first call. -/
def Cpus.ready : Cpus := ⟨Priv.ringReady 0,.idle,.idle⟩

/-- The ring is filled; the next packet finds it full; before the queue is stopped every packet
is completed and a whole call of my_tx_clean reclaims them. -/
def slowStop : List CpuLabel :=
  (List.range 63).flatMap postCall ++
    (.callXmit ⟨63,[]⟩ none :: .xmit :: .xmit :: (List.range 63).map .complete) ++
    .callClean :: List.replicate 318 .clean

/-- In one run the queue is stopped while the ring is full; in another it is stopped late. -/
theorem stopped_full_in_time_run :
    (∃ s, (cpus.restrict Cpus.stopsInTime).run ((List.range 63).flatMap postCall ++
      .callXmit ⟨63,[]⟩ none :: List.replicate 3 .xmit) Cpus.ready = some s ∧
      s.quiet ∧ s.priv.queueStopped = true ∧ WakeSound s) ∧
    ∃ s t, cpus.run slowStop Cpus.ready = some s ∧ cpus.step s .xmit = some t ∧ t.quiet ∧
      ¬ WakeSound t := by
  have hinit : ∀ {ok}, cpus.ReachableUnder ok Cpus.ready := .init ⟨0,rfl,rfl,rfl⟩
  constructor
  · have hrun : ((cpus.restrict Cpus.stopsInTime).run ((List.range 63).flatMap postCall ++
        .callXmit ⟨63,[]⟩ none :: List.replicate 3 .xmit) Cpus.ready).map
        (fun s => (s.xmit,s.clean,s.priv.queueStopped)) = some (.idle,.idle,true) := by
      decide +kernel
    obtain ⟨s,hs,hout⟩ := Option.map_eq_some_iff.mp hrun
    simp only [Prod.mk.injEq] at hout
    obtain ⟨hx,hc,hstopped⟩ := hout
    have hreach := Machine.ReachableUnder.of_run hinit hs
    exact ⟨s,hs,⟨hx,hc⟩,hstopped,(stopped_full_in_time s).1 hreach ⟨hx,hc⟩⟩
  · have hrun : (cpus.run slowStop Cpus.ready).map
        (fun s => (s.xmit,decide (s.stopsInTime .xmit))) = some (.stop ⟨63,[]⟩,false) := by
      decide +kernel
    obtain ⟨s,hs,hout⟩ := Option.map_eq_some_iff.mp hrun
    obtain ⟨hx,hlate⟩ := Prod.mk.inj hout
    obtain ⟨t,ht⟩ : ∃ t, cpus.step s .xmit = some t := by
      simp [cpus,Cpus.step,Cpus.xmitStep,hx]
    have hbad := (stopped_full_in_time s).2 .xmit t (Machine.Reachable.of_run hinit hs)
      (of_decide_eq_false hlate) ht
    exact ⟨s,t,hs,ht,hbad⟩

/-- The queue can stay stopped with an empty ring. -/
theorem late_stop_run : ∃ s, cpus.Reachable s ∧ s.quiet ∧ s.priv.queueStopped = true ∧
    s.priv.txRingFull = false ∧ s.priv.inFlight = 0 := by
  have hrun : (cpus.run (slowStop ++ [.xmit]) Cpus.ready).map
      (fun s => (s.xmit,s.clean,s.priv.queueStopped,s.priv.txRingFull,s.priv.inFlight)) =
      some (.idle,.idle,true,false,0) := by decide +kernel
  obtain ⟨s,hs,hout⟩ := Option.map_eq_some_iff.mp hrun
  simp only [Prod.mk.injEq] at hout
  obtain ⟨hx,hc,hstopped,hroom,hflight⟩ := hout
  have hinit : cpus.Reachable Cpus.ready := .init ⟨0,rfl,rfl,rfl⟩
  exact ⟨s,Machine.Reachable.of_run hinit hs,⟨hx,hc⟩,hstopped,hroom,hflight⟩

end NetLab.SimpleNetdev
