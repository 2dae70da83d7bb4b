import NetLab.Foundation.History
import NetLab.Foundation.Ring
import NetLab.SimpleNetdev.RxRing

/-! my_poll hands on what the device has put into the ring: every frame once, in order and byte
by byte unless there is no memory for it, and every descriptor goes back as it was. -/
namespace NetLab.SimpleNetdev

open NetLab.Ring

/-- The members of a list that are marked as kept. -/
def kept {α : Type*} (xs : List α) (marks : List Bool) : List α :=
  ((xs.zip marks).filter (fun p => p.2)).map Prod.fst

section Kept

variable {α : Type*} {xs : List α} {marks : List Bool}

/-- Members beyond the marks do not count. -/
theorem kept_append (h : marks.length ≤ xs.length) (ys : List α) :
    kept (xs ++ ys) marks = kept xs marks := by
  induction xs generalizing marks with
  | nil =>
    obtain rfl := List.length_eq_zero_iff.mp (Nat.le_zero.mp h)
    simp [kept]
  | cons x xs ih =>
    cases marks with
    | nil => simp [kept]
    | cons mark marks =>
      have hrest : kept (xs ++ ys) marks = kept xs marks := ih (by simpa using h)
      cases mark <;> simpa [kept] using hrest

/-- One more mark keeps or drops the next member. -/
theorem kept_snoc (h : xs.length = marks.length) (x : α) (ys : List α) (mark : Bool) :
    kept (xs ++ x::ys) (marks ++ [mark]) =
      kept (xs ++ x::ys) marks ++ (if mark then [x] else []) := by
  rw [kept_append h.ge,kept,List.zip_append h]
  cases mark <;> simp [kept]

end Kept

/-! ### What the log says -/

def RxEvent.arrived? : RxEvent → Option (List UInt8)
  | .arrived frame => some frame
  | _ => none

def RxEvent.harvested? : RxEvent → Option Bool
  | .harvested allocated => some allocated
  | _ => none

def RxEvent.received? : RxEvent → Option (List UInt8)
  | .received frame => some frame
  | _ => none

def RxEvent.recycled? : RxEvent → Option (ℕ × RxDesc)
  | .recycled i desc => some (i,desc)
  | _ => none

/-- The frames that the device has delivered, in order of arrival. -/
def arrivals (log : List RxEvent) : List (List UInt8) := log.filterMap RxEvent.arrived?

/-- The descriptors taken so far: whether there was memory for each. -/
def harvests (log : List RxEvent) : List Bool := log.filterMap RxEvent.harvested?

/-- The frames given to netif_receive_skb. -/
def receptions (log : List RxEvent) : List (List UInt8) := log.filterMap RxEvent.received?

/-- The descriptors that the device got back. -/
def returns (log : List RxEvent) : List (ℕ × RxDesc) := log.filterMap RxEvent.recycled?

/-- The current call of my_poll, or the last one. -/
structure Call where
  budget : ℕ
  harvests : ℕ
  stopped : Bool

def Call.note (call : Call) : RxEvent → Call
  | .called budget => ⟨budget,0,false⟩
  | .harvested _ => { call with harvests := call.harvests+1 }
  | .stopped => { call with stopped := true }
  | _ => call

def lastCall (log : List RxEvent) : Call := log.foldl Call.note ⟨0,0,false⟩

section Log

variable (log es : List RxEvent) (e : RxEvent)

@[simp] theorem arrivals_append : arrivals (log ++ es) = arrivals log ++ arrivals es :=
  List.filterMap_append

@[simp] theorem harvests_append : harvests (log ++ es) = harvests log ++ harvests es :=
  List.filterMap_append

@[simp] theorem receptions_append : receptions (log ++ es) = receptions log ++ receptions es :=
  List.filterMap_append

@[simp] theorem returns_append : returns (log ++ es) = returns log ++ returns es :=
  List.filterMap_append

@[simp] theorem lastCall_snoc : lastCall (log ++ [e]) = (lastCall log).note e := by
  simp [lastCall]

end Log

/-- The descriptor at rx_head has been taken and is not the device's again yet. -/
def RxPc.recycling : RxPc → Bool
  | .refill _ _ | .give _ _ => true
  | _ => false

/-- The first descriptor that may still be my_poll's. -/
def RxPoll.front (s : RxPoll) : ℕ :=
  match s.pc with
  | .advance _ _ => nextRx s.rxHead
  | _ => s.rxHead

section Alloc

variable {answers : ℕ → RxAlloc}

/-- my_alloc_rx_buffers succeeds only with a buffer and a mapping for each descriptor. -/
theorem allocRxFrom_ok {n i : ℕ} {ring ring' : ℕ → RxDesc}
    (h : allocRxFrom answers n i ring = .ok ring') :
    (∀ k, i ≤ k → k < i+n → ∃ buf dma, (answers k).buf = some buf ∧
      ring' k = RxDesc.fresh buf dma) ∧ ∀ k, k < i → ring' k = ring k := by
  induction n generalizing i ring with
  | zero =>
    obtain rfl := Except.ok.inj h
    exact ⟨fun k hi hk => by omega,fun _ _ => rfl⟩
  | succ n ih =>
    cases hbuf : (answers i).buf with
    | none => simp [allocRxFrom,hbuf] at h
    | some buf =>
      cases hdma : (answers i).mapping with
      | none => simp [allocRxFrom,hbuf,hdma] at h
      | some dma =>
        simp only [allocRxFrom,hbuf,hdma] at h
        obtain ⟨hnew,hold⟩ := ih h
        refine ⟨fun k hi hk => ?_,fun k hk => ?_⟩
        · obtain rfl | hlt := Nat.eq_or_lt_of_le hi
          · refine ⟨buf,dma,hbuf,?_⟩
            rw [hold i (Nat.lt_succ_self i),Function.update_self]
          · exact hnew k hlt (by omega)
        · rw [hold k (by omega),Function.update_of_ne (by omega)]

end Alloc

/-- A ring as my_alloc_rx_buffers leaves it: kmalloc does not return one buffer twice. -/
structure Allocated (ring : ℕ → RxDesc) : Prop where
  fresh : ∀ k < rxRingSize, ∃ buf dma, ring k = RxDesc.fresh buf dma
  distinct : ∀ i < rxRingSize, ∀ j < rxRingSize, (ring i).buf = (ring j).buf → i = j

theorem allocRxBuffers_ok {answers : ℕ → RxAlloc} {ring : ℕ → RxDesc}
    (h : allocRxBuffers answers = .ok ring)
    (hdistinct : ∀ i < rxRingSize, ∀ j < rxRingSize, (answers i).buf = (answers j).buf → i = j) :
    Allocated ring := by
  have hfresh : ∀ k < rxRingSize, ∃ buf dma, (answers k).buf = some buf ∧
      ring k = RxDesc.fresh buf dma := by
    intro k hk
    exact (allocRxFrom_ok h).1 k (Nat.zero_le k) (by omega)
  constructor
  · intro k hk
    obtain ⟨buf,dma,-,hring⟩ := hfresh k hk
    exact ⟨buf,dma,hring⟩
  · intro i hi j hj hij
    obtain ⟨buf,dma,hbuf,hring⟩ := hfresh i hi
    obtain ⟨buf',dma',hbuf',hring'⟩ := hfresh j hj
    rw [hring,hring'] at hij
    exact hdistinct i hi j hj (by rw [hbuf,hbuf']; exact hij)

/-! ### The descriptors -/

/-- The frames `ws` lie in the descriptors from `front` on, which are the driver's; the first of
them may have been taken already. All others are the device's, and none has moved. -/
structure Slots (ring rxRing : ℕ → RxDesc) (buffer : ℕ → ℕ → UInt8) (front : ℕ) (taken : Bool)
    (ws : List (List UInt8)) : Prop where
  front_lt : front < rxRingSize
  room : ws.length ≤ rxRingSize
  fixed : ∀ k < rxRingSize, (rxRing k).buf = (ring k).buf ∧ (rxRing k).dmaAddr = (ring k).dmaAddr
  marked : Marked rxRingSize (fun k => !(rxRing k).ownedByHw) front ws.length
  idle : ∀ k < rxRingSize, (rxRing k).ownedByHw = true → (rxRing k).done = false
  waiting : ∀ i (h : i < ws.length), (i = 0 → taken = false) →
    (rxRing (cell rxRingSize front i)).done = true ∧
      (rxRing (cell rxRingSize front i)).bytes buffer = ws[i]

namespace Slots

variable {ring rxRing : ℕ → RxDesc} {buffer : ℕ → ℕ → UInt8} {front : ℕ} {taken : Bool}
variable {frame : List UInt8} {ws : List (List UInt8)}

theorem initial (h : Allocated ring) : Slots ring ring buffer 0 false [] := by
  have hfresh : ∀ k < rxRingSize, (ring k).ownedByHw = true ∧ (ring k).done = false := by
    intro k hk
    obtain ⟨buf,dma,hring⟩ := h.fresh k hk
    rw [hring]
    exact ⟨rfl,rfl⟩
  refine ⟨by decide,Nat.zero_le _,fun k _ => ⟨rfl,rfl⟩,?_,fun k hk _ => (hfresh k hk).2,?_⟩
  · refine Holds.empty fun k hk => ?_
    simp [(hfresh k hk).1]
  · intro i hi
    exact absurd hi (Nat.not_lt_zero i)

/-- Which of the descriptors the device owns. -/
theorem owned_iff (h : Slots ring rxRing buffer front taken ws) {i : ℕ} (hi : i < rxRingSize) :
    (rxRing (cell rxRingSize front i)).ownedByHw = true ↔ ws.length ≤ i := by
  have hmark := h.marked.at_cell h.room hi
  rw [Bool.not_eq_true',← Bool.not_eq_true] at hmark
  rw [← not_lt,← hmark,not_not]

/-- A descriptor of the driver at the front holds the first frame. -/
theorem front_item (h : Slots ring rxRing buffer front taken ws)
    (howned : (rxRing front).ownedByHw = false) : ∃ frame rest, ws = frame::rest := by
  refine List.exists_cons_of_length_pos ?_
  have hiff := h.owned_iff (i := 0) (by decide)
  rw [cell_zero h.front_lt,howned] at hiff
  by_contra hnil
  exact absurd (hiff.mpr (by omega)) (by decide)

theorem take (h : Slots ring rxRing buffer front false ws) :
    Slots ring rxRing buffer front true ws :=
  ⟨h.front_lt,h.room,h.fixed,h.marked,h.idle,fun i hi _ => h.waiting i hi (fun _ => rfl)⟩

theorem fixed_update (h : Slots ring rxRing buffer front taken ws) {j : ℕ} {desc : RxDesc}
    (hbuf : desc.buf = (rxRing j).buf) (hdma : desc.dmaAddr = (rxRing j).dmaAddr) :
    ∀ k < rxRingSize, (Function.update rxRing j desc k).buf = (ring k).buf ∧
      (Function.update rxRing j desc k).dmaAddr = (ring k).dmaAddr := by
  intro k hk
  by_cases hkj : k = j
  · subst hkj
    rw [Function.update_self,hbuf,hdma]
    exact h.fixed k hk
  · rw [Function.update_of_ne hkj]
    exact h.fixed k hk

theorem marks_update {j : ℕ} {desc : RxDesc} :
    (fun k => !(Function.update rxRing j desc k).ownedByHw) =
      Function.update (fun k => !(rxRing k).ownedByHw) j !desc.ownedByHw := by
  funext k
  by_cases hkj : k = j
  · subst hkj
    simp
  · simp [hkj]

theorem cell_ne (h : Slots ring rxRing buffer front taken ws) {i j : ℕ} (hi : i < ws.length)
    (hj : j < rxRingSize) (hne : i ≠ j) : cell rxRingSize front i ≠ cell rxRingSize front j := by
  rw [Ne,cell_inj (hi.trans_le h.room) hj]
  exact hne

/-- The refill of the front descriptor. -/
theorem clear (h : Slots ring rxRing buffer front true (frame::ws)) :
    Slots ring (Function.update rxRing front { rxRing front with len := 0, done := false })
      buffer front true (frame::ws) := by
  have howned : (rxRing front).ownedByHw = false := by
    have hiff := h.owned_iff (i := 0) (by decide)
    rw [cell_zero h.front_lt] at hiff
    simpa using hiff
  refine ⟨h.front_lt,h.room,h.fixed_update rfl rfl,?_,?_,?_⟩
  · rw [marks_update]
    have hsame := Function.update_eq_self front (fun k => !(rxRing k).ownedByHw)
    exact hsame.symm ▸ h.marked
  · intro k hk ho
    by_cases hk' : k = front
    · subst hk'
      rw [Function.update_self]
    · rw [Function.update_of_ne hk'] at ho ⊢
      exact h.idle k hk ho
  · intro i hi hz
    have hne : i ≠ 0 := fun h0 => Bool.noConfusion (hz h0)
    have hcell := h.cell_ne hi (by decide) hne
    rw [cell_zero h.front_lt] at hcell
    rw [Function.update_of_ne hcell]
    exact h.waiting i hi hz

/-- The front descriptor goes back to the device. -/
theorem give (h : Slots ring rxRing buffer front true (frame::ws))
    (hdone : (rxRing front).done = false) :
    Slots ring (Function.update rxRing front { rxRing front with ownedByHw := true })
      buffer (cell rxRingSize front 1) false ws := by
  have hroom := h.room
  rw [List.length_cons] at hroom
  refine ⟨cell_lt (by decide),(Nat.le_succ _).trans hroom,h.fixed_update rfl rfl,?_,?_,?_⟩
  · rw [marks_update]
    exact h.marked.clear h.front_lt hroom
  · intro k hk ho
    by_cases hk' : k = front
    · subst hk'
      rw [Function.update_self]
      exact hdone
    · rw [Function.update_of_ne hk'] at ho ⊢
      exact h.idle k hk ho
  · intro i hi _
    have hi' : i+1 < (frame::ws).length := Nat.succ_lt_succ hi
    have hcell := h.cell_ne hi' (by decide) (Nat.succ_ne_zero i)
    rw [cell_zero h.front_lt] at hcell
    rw [cell_cell,Nat.add_comm 1 i,Function.update_of_ne hcell]
    exact h.waiting (i+1) hi' (fun h0 => absurd h0 (Nat.succ_ne_zero i))

/-- The descriptor that the device fills next is behind the frames. -/
theorem device_room (h : Slots ring rxRing buffer front taken ws)
    (howned : (rxRing (cell rxRingSize front ws.length)).ownedByHw = true) :
    ws.length < rxRingSize := by
  refine lt_of_le_of_ne h.room fun hfull => ?_
  have hwrap : cell rxRingSize front ws.length = cell rxRingSize front 0 := by
    rw [hfull,cell,cell,Nat.add_mod_right,Nat.add_zero]
  rw [hwrap,h.owned_iff (by decide),hfull] at howned
  exact absurd howned (by decide)

/-- The device writes a frame into the buffer of its descriptor. -/
theorem fill (h : Slots ring rxRing buffer front taken ws) (hring : Allocated ring) {buf : ℕ}
    (howned : (rxRing (cell rxRingSize front ws.length)).ownedByHw = true)
    (hbuf : (rxRing (cell rxRingSize front ws.length)).buf = some buf) (frame : List UInt8) :
    Slots ring (Function.update rxRing (cell rxRingSize front ws.length)
        { rxRing (cell rxRingSize front ws.length) with len := frame.length })
      (Function.update buffer buf (storeAt (buffer buf) 0 frame)) front taken ws := by
  have hroom := h.device_room howned
  refine ⟨h.front_lt,h.room,h.fixed_update rfl rfl,?_,?_,?_⟩
  · rw [marks_update]
    have hsame := Function.update_eq_self (cell rxRingSize front ws.length)
      (fun k => !(rxRing k).ownedByHw)
    exact hsame.symm ▸ h.marked
  · intro k hk ho
    by_cases hk' : k = cell rxRingSize front ws.length
    · subst hk'
      rw [Function.update_self] at ho ⊢
      exact h.idle _ hk ho
    · rw [Function.update_of_ne hk'] at ho ⊢
      exact h.idle k hk ho
  · intro i hi hz
    have hcell := h.cell_ne hi hroom hi.ne
    rw [Function.update_of_ne hcell]
    obtain ⟨hdone,hbytes⟩ := h.waiting i hi hz
    refine ⟨hdone,Eq.trans ?_ hbytes⟩
    -- another descriptor has another buffer
    cases hother : (rxRing (cell rxRingSize front i)).buf with
    | none => simp [RxDesc.bytes,hother]
    | some other =>
      have hne : other ≠ buf := by
        rintro rfl
        refine hcell (hring.distinct _ (cell_lt (by decide)) _ (cell_lt (by decide)) ?_)
        rw [← (h.fixed _ (cell_lt (by decide))).1,← (h.fixed _ (cell_lt (by decide))).1,hother,hbuf]
      simp [RxDesc.bytes,hother,hne]

/-- The device completes the descriptor behind the frames. -/
theorem deliver (h : Slots ring rxRing buffer front taken ws)
    (howned : (rxRing (cell rxRingSize front ws.length)).ownedByHw = true)
    (hbytes : (rxRing (cell rxRingSize front ws.length)).bytes buffer = frame) :
    Slots ring (Function.update rxRing (cell rxRingSize front ws.length)
        { rxRing (cell rxRingSize front ws.length) with ownedByHw := false, done := true })
      buffer front taken (ws ++ [frame]) := by
  have hroom := h.device_room howned
  refine ⟨h.front_lt,by simpa using hroom,h.fixed_update rfl rfl,?_,?_,?_⟩
  · rw [marks_update,List.length_append,List.length_singleton]
    exact h.marked.mark hroom
  · intro k hk ho
    by_cases hk' : k = cell rxRingSize front ws.length
    · subst hk'
      rw [Function.update_self] at ho
      contradiction
    · rw [Function.update_of_ne hk'] at ho ⊢
      exact h.idle k hk ho
  · intro i hi hz
    rw [List.length_append,List.length_singleton] at hi
    obtain hlt | rfl := Nat.lt_succ_iff_lt_or_eq.mp hi
    · rw [Function.update_of_ne (h.cell_ne hlt hroom hlt.ne),List.getElem_append_left hlt]
      exact h.waiting i hlt hz
    · rw [Function.update_self,List.getElem_concat_length rfl]
      exact ⟨rfl,hbytes⟩

end Slots

/-! ### The log and the run -/

/-- The log says that the frames `gone` have been recycled and that `ws` are in the ring. -/
structure Books (ring : ℕ → RxDesc) (log : List RxEvent) (taken : Bool)
    (gone ws : List (List UInt8)) : Prop where
  arrivals_eq : arrivals log = gone ++ ws
  harvests_eq : (harvests log).length = gone.length+(if taken then 1 else 0)
  receptions_eq : receptions log = kept (arrivals log) (harvests log)
  returns_eq : returns log =
    (List.range gone.length).map (fun i => (i % rxRingSize,ring (i % rxRingSize)))

namespace Books

variable {ring : ℕ → RxDesc} {log es : List RxEvent} {taken : Bool} {gone ws : List (List UInt8)}
variable {frame : List UInt8}

/-- Events that concern no frame and no descriptor. -/
theorem quiet (h : Books ring log taken gone ws) (ha : arrivals es = []) (hh : harvests es = [])
    (hr : receptions es = []) (hret : returns es = []) : Books ring (log ++ es) taken gone ws := by
  constructor
  · rw [arrivals_append,ha,List.append_nil]
    exact h.arrivals_eq
  · rw [harvests_append,hh,List.append_nil]
    exact h.harvests_eq
  · rw [receptions_append,arrivals_append,harvests_append,ha,hh,hr]
    simpa using h.receptions_eq
  · rw [returns_append,hret,List.append_nil]
    exact h.returns_eq

theorem take (answer : Bool) (h : Books ring log false gone (frame::ws)) (ha : arrivals es = [])
    (hh : harvests es = [answer]) (hr : receptions es = if answer then [frame] else [])
    (hret : returns es = []) : Books ring (log ++ es) true gone (frame::ws) := by
  have hlength : gone.length = (harvests log).length := h.harvests_eq.symm
  constructor
  · rw [arrivals_append,ha,List.append_nil]
    exact h.arrivals_eq
  · rw [harvests_append,hh,List.length_append,← hlength]
    rfl
  · rw [receptions_append,arrivals_append,harvests_append,ha,hh,hr,List.append_nil,
      h.receptions_eq,h.arrivals_eq,kept_snoc hlength]
  · rw [returns_append,hret,List.append_nil]
    exact h.returns_eq

theorem give (h : Books ring log true gone (frame::ws)) (ha : arrivals es = [])
    (hh : harvests es = []) (hr : receptions es = [])
    (hret : returns es = [(gone.length % rxRingSize,ring (gone.length % rxRingSize))]) :
    Books ring (log ++ es) false (gone ++ [frame]) ws := by
  constructor
  · rw [arrivals_append,ha,h.arrivals_eq]
    simp
  · rw [harvests_append,hh,List.append_nil,h.harvests_eq]
    simp
  · rw [receptions_append,arrivals_append,harvests_append,ha,hh,hr]
    simpa using h.receptions_eq
  · rw [returns_append,hret,h.returns_eq]
    simp [List.range_succ]

theorem harvests_le (h : Books ring log taken gone ws) (hfit : taken = true → ws ≠ []) :
    (harvests log).length ≤ (arrivals log).length := by
  rw [h.harvests_eq,h.arrivals_eq,List.length_append]
  cases taken with
  | false => simp
  | true => simpa [Nat.one_le_iff_ne_zero] using hfit rfl

theorem deliver (h : Books ring log taken gone ws) (hfit : taken = true → ws ≠ [])
    (ha : arrivals es = [frame]) (hh : harvests es = []) (hr : receptions es = [])
    (hret : returns es = []) : Books ring (log ++ es) taken gone (ws ++ [frame]) := by
  have hle := h.harvests_le hfit
  constructor
  · rw [arrivals_append,ha,h.arrivals_eq,List.append_assoc]
  · rw [harvests_append,hh,List.append_nil]
    exact h.harvests_eq
  · rw [receptions_append,arrivals_append,harvests_append,ha,hh,hr,List.append_nil,List.append_nil,
      kept_append hle]
    exact h.receptions_eq
  · rw [returns_append,hret,List.append_nil]
    exact h.returns_eq

end Books

/-- What my_poll has found out about the descriptor at rx_head. -/
def RxPc.Ok (desc : RxDesc) : RxPc → Prop
  | .checkDone _ _ | .refill _ _ => desc.ownedByHw = false
  | .take _ _ => desc.ownedByHw = false ∧ desc.done = true
  | .give _ _ => desc.ownedByHw = false ∧ desc.done = false ∧ desc.len = 0
  | _ => True

structure RxInv (ring : ℕ → RxDesc) (s : RxPoll) (gone ws : List (List UInt8)) : Prop where
  slots : Slots ring s.rxRing s.buffer s.front s.pc.recycling ws
  books : Books ring s.log s.pc.recycling gone ws
  head_lt : s.rxHead < rxRingSize
  front_eq : s.front = gone.length % rxRingSize
  device : s.device = cell rxRingSize s.front ws.length
  loaded : ∀ frame, s.loaded = some frame → (s.rxRing s.device).ownedByHw = true ∧
    (s.rxRing s.device).bytes s.buffer = frame
  pc : s.pc.Ok s.desc

section Steps

variable {ring : ℕ → RxDesc} {s : RxPoll} {gone ws : List (List UInt8)} {budget workDone : ℕ}

/-- A step that only moves on in my_poll. -/
theorem RxInv.silent {pc : RxPc} {l es : List RxEvent} (h : RxInv ring s gone ws)
    (hl : l = s.log ++ es) (hfront : RxPoll.front { s with pc := pc, log := l } = s.front)
    (hrec : pc.recycling = s.pc.recycling) (hok : pc.Ok s.desc) (ha : arrivals es = [])
    (hh : harvests es = []) (hr : receptions es = []) (hret : returns es = []) :
    RxInv ring { s with pc := pc, log := l } gone ws := by
  subst hl
  constructor
  · rw [hfront]
    exact hrec ▸ h.slots
  · exact (hrec ▸ h.books).quiet ha hh hr hret
  · exact h.head_lt
  · exact hfront.trans h.front_eq
  · rw [hfront]
    exact h.device
  · exact h.loaded
  · exact hok

theorem RxPoll.front_of_ne (h : ∀ budget workDone, s.pc ≠ .advance budget workDone) :
    s.front = s.rxHead := by
  unfold RxPoll.front
  split
  · next b w hpc => exact absurd hpc (h b w)
  · rfl

/-- The descriptor that my_poll looks at holds the first frame once the driver owns it. -/
theorem RxInv.front_item (h : RxInv ring s gone ws) (hfront : s.front = s.rxHead)
    (howned : s.desc.ownedByHw = false) : ∃ frame rest, ws = frame::rest := by
  refine h.slots.front_item ?_
  rw [hfront]
  exact howned

/-- The frame of the descriptor that is being recycled is still counted. -/
theorem RxInv.taken_ne_nil (h : RxInv ring s gone ws) (hrec : s.pc.recycling = true) : ws ≠ [] := by
  intro hnil
  have hok := h.pc
  have hhead : s.desc.ownedByHw = false ∧ s.front = s.rxHead := by
    cases hpc : s.pc <;> simp_all [RxPc.recycling,RxPc.Ok,RxPoll.front]
  obtain ⟨frame,rest,hws⟩ := h.front_item hhead.2 hhead.1
  rw [hnil] at hws
  contradiction

/-- While a frame is on its way into a buffer, the driver's descriptor is another one. -/
theorem RxInv.head_ne (h : RxInv ring s gone ws) (howned : s.desc.ownedByHw = false)
    {frame : List UInt8} (hl : s.loaded = some frame) : s.device ≠ s.rxHead := by
  intro he
  have hdevice := (h.loaded frame hl).1
  rw [he] at hdevice
  exact Bool.noConfusion (hdevice.symm.trans howned)

/-- Changing the driver's descriptor leaves the device's alone. -/
theorem RxInv.loaded_update (h : RxInv ring s gone ws) (howned : s.desc.ownedByHw = false)
    (desc : RxDesc) : ∀ frame, s.loaded = some frame →
      (Function.update s.rxRing s.rxHead desc s.device).ownedByHw = true ∧
      (Function.update s.rxRing s.rxHead desc s.device).bytes s.buffer = frame := by
  intro frame hl
  rw [Function.update_of_ne (h.head_ne howned hl)]
  exact h.loaded frame hl

theorem RxInv.take (h : RxInv ring s gone ws) (hpc : s.pc = .take budget workDone)
    (answer : Bool) : RxInv ring (s.poll answer) gone ws := by
  have hfront : s.front = s.rxHead := RxPoll.front_of_ne (by simp [hpc])
  obtain ⟨hslots,hbooks,hhead,hfront_eq,hdevice,hloaded,hok⟩ := h
  rw [hpc] at hslots hbooks hok
  rw [hfront] at hslots hfront_eq hdevice
  obtain ⟨frame,rest,rfl⟩ := hslots.front_item hok.1
  have hframe : s.desc.bytes s.buffer = frame := by
    have hitem := (hslots.waiting 0 (Nat.succ_pos _) (fun _ => rfl)).2
    rwa [cell_zero hhead] at hitem
  rw [RxPoll.poll,hpc]
  refine ⟨hslots.take,.take answer hbooks ?_ ?_ ?_ ?_,hhead,hfront_eq,hdevice,hloaded,hok.1⟩
  · cases answer <;> rfl
  · cases answer <;> rfl
  · rw [hframe]
    cases answer <;> rfl
  · cases answer <;> rfl

theorem RxInv.refill (h : RxInv ring s gone ws) (hpc : s.pc = .refill budget workDone)
    (answer : Bool) : RxInv ring (s.poll answer) gone ws := by
  have hfront : s.front = s.rxHead := RxPoll.front_of_ne (by simp [hpc])
  have howned : s.desc.ownedByHw = false := by
    have hok := h.pc
    rwa [hpc] at hok
  have hloaded := h.loaded_update howned { s.desc with len := 0, done := false }
  obtain ⟨hslots,hbooks,hhead,hfront_eq,hdevice,-,-⟩ := h
  rw [hpc] at hslots hbooks
  rw [hfront] at hslots hfront_eq hdevice
  obtain ⟨frame,rest,rfl⟩ := hslots.front_item howned
  rw [RxPoll.poll,hpc]
  refine ⟨hslots.clear,hbooks.quiet rfl rfl rfl rfl,hhead,hfront_eq,hdevice,hloaded,?_⟩
  change (Function.update s.rxRing s.rxHead _ s.rxHead).ownedByHw = false ∧
    (Function.update s.rxRing s.rxHead _ s.rxHead).done = false ∧
    (Function.update s.rxRing s.rxHead _ s.rxHead).len = 0
  rw [Function.update_self]
  exact ⟨howned,rfl,rfl⟩

/-- The descriptor goes back exactly as my_alloc_rx_buffers had left it. -/
theorem RxInv.give (h : RxInv ring s gone ws) (hring : Allocated ring)
    (hpc : s.pc = .give budget workDone) (answer : Bool) :
    ∃ frame rest, ws = frame::rest ∧ RxInv ring (s.poll answer) (gone ++ [frame]) rest := by
  have hfront : s.front = s.rxHead := RxPoll.front_of_ne (by simp [hpc])
  obtain ⟨howned,hdone,hlen⟩ : s.desc.ownedByHw = false ∧ s.desc.done = false ∧ s.desc.len = 0 := by
    have hok := h.pc
    rwa [hpc] at hok
  have hloaded := h.loaded_update howned { s.desc with ownedByHw := true }
  obtain ⟨hslots,hbooks,hhead,hfront_eq,hdevice,-,-⟩ := h
  rw [hpc] at hslots hbooks
  rw [hfront] at hslots hfront_eq hdevice
  obtain ⟨frame,rest,rfl⟩ := hslots.front_item howned
  have hdesc : { s.desc with ownedByHw := true } = ring s.rxHead := by
    obtain ⟨hbuf,hdma⟩ := hslots.fixed s.rxHead hhead
    obtain ⟨buf,dma,hfresh⟩ := hring.fresh s.rxHead hhead
    rw [hfresh] at hbuf hdma ⊢
    have hbuf : s.desc.buf = some buf := hbuf
    have hdma : s.desc.dmaAddr = dma := hdma
    simp [RxDesc.fresh,hbuf,hdma,hlen,hdone]
  refine ⟨frame,rest,rfl,?_⟩
  rw [RxPoll.poll,hpc]
  refine ⟨hslots.give hdone,hbooks.give rfl rfl rfl ?_,hhead,?_,?_,hloaded,trivial⟩
  · rw [← hfront_eq,← hdesc]
    rfl
  · change nextRx s.rxHead = _
    rw [hfront_eq,nextRx,List.length_append,List.length_singleton,Nat.mod_add_mod]
  · change s.device = cell rxRingSize (nextRx s.rxHead) rest.length
    rw [hdevice,List.length_cons,Nat.add_comm,← cell_cell]
    rfl

theorem RxInv.advance (h : RxInv ring s gone ws) (hpc : s.pc = .advance budget workDone)
    (answer : Bool) : RxInv ring (s.poll answer) gone ws := by
  have hfront : s.front = nextRx s.rxHead := by
    rw [RxPoll.front,hpc]
  obtain ⟨hslots,hbooks,hhead,hfront_eq,hdevice,hloaded,-⟩ := h
  rw [hpc] at hslots hbooks
  rw [hfront] at hslots hfront_eq hdevice
  rw [RxPoll.poll,hpc]
  exact ⟨hslots,hbooks,Nat.mod_lt _ (by decide),hfront_eq,hdevice,hloaded,trivial⟩

/-- Every step of my_poll keeps the invariant. -/
theorem RxInv.poll (h : RxInv ring s gone ws) (hring : Allocated ring) (answer : Bool) :
    ∃ gone' ws', RxInv ring (s.poll answer) gone' ws' := by
  have hnil := (List.append_nil s.log).symm
  cases hpc : s.pc with
  | idle =>
    rw [RxPoll.poll,hpc]
    exact ⟨gone,ws,h⟩
  | loop budget workDone =>
    have hfront : s.front = s.rxHead := RxPoll.front_of_ne (by simp [hpc])
    rw [RxPoll.poll,hpc]
    refine ⟨gone,ws,?_⟩
    dsimp only
    split_ifs with hlt howned
    · exact h.silent rfl hfront.symm (by rw [hpc]; rfl) trivial rfl rfl rfl rfl
    · exact h.silent hnil hfront.symm (by rw [hpc]; rfl) (by simpa [RxPc.Ok] using howned) rfl rfl
        rfl rfl
    · exact h.silent rfl hfront.symm (by rw [hpc]; rfl) trivial rfl rfl rfl rfl
  | checkDone budget workDone =>
    have hfront : s.front = s.rxHead := RxPoll.front_of_ne (by simp [hpc])
    have hok := h.pc
    rw [hpc] at hok
    rw [RxPoll.poll,hpc]
    refine ⟨gone,ws,?_⟩
    dsimp only
    split_ifs with hdone
    · exact h.silent hnil hfront.symm (by rw [hpc]; rfl) ⟨hok,hdone⟩ rfl rfl rfl rfl
    · exact h.silent rfl hfront.symm (by rw [hpc]; rfl) trivial rfl rfl rfl rfl
  | take budget workDone => exact ⟨_,_,h.take hpc answer⟩
  | refill budget workDone => exact ⟨_,_,h.refill hpc answer⟩
  | give budget workDone =>
    obtain ⟨frame,rest,-,hgive⟩ := h.give hring hpc answer
    exact ⟨_,_,hgive⟩
  | advance budget workDone => exact ⟨_,_,h.advance hpc answer⟩
  | complete workDone =>
    have hfront : s.front = s.rxHead := RxPoll.front_of_ne (by simp [hpc])
    obtain ⟨hslots,hbooks,hhead,hfront_eq,hdevice,hloaded,-⟩ := h
    rw [hpc] at hslots hbooks
    rw [hfront] at hslots hfront_eq hdevice
    rw [RxPoll.poll,hpc]
    exact ⟨gone,ws,hslots,hbooks.quiet rfl rfl rfl rfl,hhead,hfront_eq,hdevice,hloaded,trivial⟩

/-- What the device does to its descriptor does not change what my_poll has found out. -/
theorem RxPc.Ok.update (h : s.pc.Ok s.desc) (howned : (s.rxRing s.device).ownedByHw = true)
    (desc : RxDesc) : s.pc.Ok (Function.update s.rxRing s.device desc s.rxHead) := by
  by_cases he : s.rxHead = s.device
  · have howned : s.desc.ownedByHw = true := by
      rw [RxPoll.desc,he]
      exact howned
    cases hpc : s.pc <;> simp [RxPc.Ok,hpc,howned] at h ⊢
  · rw [Function.update_of_ne he]
    exact h

theorem RxInv.fill (h : RxInv ring s gone ws) (hring : Allocated ring) {buf : ℕ}
    (hbuf : (s.rxRing s.device).buf = some buf) (howned : (s.rxRing s.device).ownedByHw = true)
    (frame : List UInt8) : RxInv ring (s.fill buf frame) gone ws := by
  have hok := h.pc.update howned { s.rxRing s.device with len := frame.length }
  obtain ⟨hslots,hbooks,hhead,hfront_eq,hdevice,-,-⟩ := h
  have hfill := hslots.fill hring (hdevice ▸ howned) (hdevice ▸ hbuf) frame
  rw [← hdevice] at hfill
  refine ⟨hfill,hbooks,hhead,hfront_eq,hdevice,?_,hok⟩
  intro f hf
  obtain rfl := Option.some.inj hf
  change (Function.update s.rxRing s.device _ s.device).ownedByHw = true ∧
    (Function.update s.rxRing s.device _ s.device).bytes (Function.update s.buffer buf _) = _
  rw [Function.update_self]
  refine ⟨howned,?_⟩
  simp only [RxDesc.bytes,hbuf,Function.update_self]
  exact segment_storeAt_self _ _ _

theorem RxInv.deliver (h : RxInv ring s gone ws) {frame : List UInt8}
    (hl : s.loaded = some frame) : RxInv ring (s.deliver frame) gone (ws ++ [frame]) := by
  obtain ⟨howned,hbytes⟩ := h.loaded frame hl
  have hok := h.pc.update howned { s.rxRing s.device with ownedByHw := false, done := true }
  have hfit := h.taken_ne_nil
  obtain ⟨hslots,hbooks,hhead,hfront_eq,hdevice,-,-⟩ := h
  have hdeliver := hslots.deliver (hdevice ▸ howned) (hdevice ▸ hbytes)
  rw [← hdevice] at hdeliver
  refine ⟨hdeliver,hbooks.deliver hfit rfl rfl rfl rfl,hhead,hfront_eq,?_,?_,hok⟩
  · change nextRx s.device = cell rxRingSize s.front (ws ++ [frame]).length
    rw [hdevice,List.length_append,List.length_singleton,← cell_cell]
    rfl
  · intro f hf
    have hf : (none : Option (List UInt8)) = some f := hf
    contradiction

/-- The number of harvests so far is known at every step of a call. -/
def RxPc.Called (call : Call) : RxPc → Prop
  | .idle => True
  | .loop budget workDone => call = ⟨budget,workDone,false⟩ ∧ workDone ≤ budget
  | .checkDone budget workDone | .take budget workDone =>
    call = ⟨budget,workDone,false⟩ ∧ workDone < budget
  | .refill budget workDone | .give budget workDone | .advance budget workDone =>
    call = ⟨budget,workDone+1,false⟩ ∧ workDone < budget
  | .complete workDone => call.harvests = workDone ∧ workDone < call.budget ∧ call.stopped = true

/-- How a call behaves: it takes no more than its budget, it stops only when every frame that has
arrived is taken, and it returns the number it has taken, a smaller one only after a stop. -/
structure Obeys (pre : List RxEvent) (e : RxEvent) : Prop where
  harvested : ∀ allocated, e = .harvested allocated →
    (lastCall pre).harvests < (lastCall pre).budget
  stopped : e = .stopped → (harvests pre).length = (arrivals pre).length
  returned : ∀ workDone, e = .returned workDone → workDone = (lastCall pre).harvests ∧
    workDone ≤ (lastCall pre).budget ∧ (workDone < (lastCall pre).budget →
      (lastCall pre).stopped = true)

/-- The other events are not constrained. -/
theorem obeys_other {pre : List RxEvent} {e : RxEvent} (hh : e.harvested? = none)
    (hs : e ≠ .stopped) (hr : ∀ workDone, e ≠ .returned workDone) : Obeys pre e := by
  refine ⟨fun allocated he => ?_,fun he => absurd he hs,fun workDone he => absurd he (hr workDone)⟩
  rw [he] at hh
  contradiction

structure RxAudit (s : RxPoll) : Prop where
  called : s.pc.Called (lastCall s.log)
  obeys : Throughout Obeys s.log

/-- At a descriptor of the device's nothing is left to take. -/
theorem RxInv.none_left (h : RxInv ring s gone ws) (hfront : s.front = s.rxHead)
    (hrec : s.pc.recycling = false) (howned : s.desc.ownedByHw = true) :
    (harvests s.log).length = (arrivals s.log).length := by
  have hiff := h.slots.owned_iff (i := 0) (by decide)
  rw [cell_zero h.slots.front_lt,hfront] at hiff
  have hnil := hiff.mp howned
  rw [h.books.harvests_eq,h.books.arrivals_eq,hrec,List.length_append]
  simpa using hnil

/-- A descriptor that the device has given up is done. -/
theorem RxInv.found_done (h : RxInv ring s gone ws) (hfront : s.front = s.rxHead)
    (hrec : s.pc.recycling = false) (howned : s.desc.ownedByHw = false) : s.desc.done = true := by
  obtain ⟨frame,rest,rfl⟩ := h.front_item hfront howned
  have hitem := (h.slots.waiting 0 (Nat.succ_pos _) (fun _ => hrec)).1
  rwa [cell_zero h.slots.front_lt,hfront] at hitem

theorem RxAudit.poll (ha : RxAudit s) (h : RxInv ring s gone ws) (answer : Bool) :
    RxAudit (s.poll answer) := by
  obtain ⟨hcalled,hobeys⟩ := ha
  cases hpc : s.pc with
  | idle =>
    rw [RxPoll.poll,hpc]
    exact ⟨hcalled,hobeys⟩
  | loop budget workDone =>
    have hfront : s.front = s.rxHead := RxPoll.front_of_ne (by simp [hpc])
    rw [hpc] at hcalled
    obtain ⟨hcall,hle⟩ := hcalled
    rw [RxPoll.poll,hpc]
    dsimp only
    split_ifs with hlt howned
    · have hleft := h.none_left hfront (by rw [hpc]; rfl) howned
      refine ⟨?_,throughout_snoc.mpr ⟨hobeys,fun _ he => by contradiction,fun _ => hleft,
        fun _ he => by contradiction⟩⟩
      change RxPc.Called (lastCall (s.log ++ [.stopped])) (.complete workDone)
      rw [lastCall_snoc,hcall]
      exact ⟨rfl,hlt,rfl⟩
    · exact ⟨⟨hcall,hlt⟩,hobeys⟩
    · refine ⟨trivial,throughout_snoc.mpr ⟨hobeys,fun _ he => by contradiction,
        fun he => by contradiction,fun w hw => ?_⟩⟩
      obtain rfl : workDone = w := by simpa using hw
      rw [hcall]
      exact ⟨rfl,hle,fun h => absurd h hlt⟩
  | checkDone budget workDone =>
    have hfront : s.front = s.rxHead := RxPoll.front_of_ne (by simp [hpc])
    have hok := h.pc
    rw [hpc] at hcalled hok
    rw [RxPoll.poll,hpc]
    dsimp only
    rw [if_pos (h.found_done hfront (by rw [hpc]; rfl) hok)]
    exact ⟨hcalled,hobeys⟩
  | take budget workDone =>
    rw [hpc] at hcalled
    obtain ⟨hcall,hlt⟩ := hcalled
    rw [RxPoll.poll,hpc]
    have hsync : Throughout Obeys (s.log ++ [.syncForCpu s.desc.dmaAddr s.desc.len]) :=
      throughout_snoc.mpr ⟨hobeys,obeys_other rfl (by simp) (by simp)⟩
    have hharvest : Throughout Obeys
        (s.log ++ [.syncForCpu s.desc.dmaAddr s.desc.len] ++ [.harvested answer]) := by
      refine throughout_snoc.mpr ⟨hsync,fun _ _ => ?_,fun he => by contradiction,
        fun _ he => by contradiction⟩
      rw [lastCall_snoc,hcall]
      exact hlt
    have hnote : lastCall (s.log ++ [.syncForCpu s.desc.dmaAddr s.desc.len] ++
        [.harvested answer]) = ⟨budget,workDone+1,false⟩ := by
      rw [lastCall_snoc,lastCall_snoc,hcall]
      rfl
    cases answer with
    | false =>
      have hlog : s.log ++ ([.syncForCpu s.desc.dmaAddr s.desc.len,.harvested false] ++ []) =
          s.log ++ [.syncForCpu s.desc.dmaAddr s.desc.len] ++ [.harvested false] := by simp
      constructor
      · change RxPc.Called (lastCall (s.log ++ ([_,_] ++ []))) (.refill budget workDone)
        rw [hlog,hnote]
        exact ⟨rfl,hlt⟩
      · change Throughout Obeys (s.log ++ ([_,_] ++ []))
        rw [hlog]
        exact hharvest
    | true =>
      have hlog : s.log ++ ([.syncForCpu s.desc.dmaAddr s.desc.len,.harvested true] ++
          [.received (s.desc.bytes s.buffer)]) =
          s.log ++ [.syncForCpu s.desc.dmaAddr s.desc.len] ++ [.harvested true] ++
            [.received (s.desc.bytes s.buffer)] := by simp
      constructor
      · change RxPc.Called (lastCall (s.log ++ ([_,_] ++ [_]))) (.refill budget workDone)
        rw [hlog,lastCall_snoc,hnote]
        exact ⟨rfl,hlt⟩
      · change Throughout Obeys (s.log ++ ([_,_] ++ [_]))
        rw [hlog]
        exact throughout_snoc.mpr ⟨hharvest,obeys_other rfl (by simp) (by simp)⟩
  | refill budget workDone =>
    rw [hpc] at hcalled
    rw [RxPoll.poll,hpc]
    refine ⟨?_,throughout_snoc.mpr ⟨hobeys,obeys_other rfl (by simp) (by simp)⟩⟩
    change RxPc.Called (lastCall (s.log ++ [_])) (.give budget workDone)
    rw [lastCall_snoc]
    exact hcalled
  | give budget workDone =>
    rw [hpc] at hcalled
    rw [RxPoll.poll,hpc]
    refine ⟨?_,throughout_snoc.mpr ⟨hobeys,obeys_other rfl (by simp) (by simp)⟩⟩
    change RxPc.Called (lastCall (s.log ++ [_])) (.advance budget workDone)
    rw [lastCall_snoc]
    exact hcalled
  | advance budget workDone =>
    rw [hpc] at hcalled
    rw [RxPoll.poll,hpc]
    exact ⟨hcalled,hobeys⟩
  | complete workDone =>
    rw [hpc] at hcalled
    obtain ⟨hharvests,hlt,hstopped⟩ := hcalled
    rw [RxPoll.poll,hpc]
    refine ⟨trivial,?_⟩
    change Throughout Obeys (s.log ++ [.completed answer,.returned workDone])
    rw [List.append_cons]
    refine throughout_snoc.mpr ⟨throughout_snoc.mpr ⟨hobeys,obeys_other rfl (by simp) (by simp)⟩,
      fun _ he => by contradiction,fun he => by contradiction,fun w hw => ?_⟩
    obtain rfl : workDone = w := by simpa using hw
    rw [lastCall_snoc]
    exact ⟨hharvests.symm,hlt.le,fun _ => hstopped⟩

end Steps

/-- How many steps my_poll has to go, at most. -/
def RxPc.left : RxPc → ℕ
  | .idle => 0
  | .loop budget workDone => 6*(budget-workDone)+2
  | .checkDone budget workDone => 6*(budget-workDone)+1
  | .take budget workDone => 6*(budget-workDone)
  | .refill budget workDone => 6*(budget-workDone)-1
  | .give budget workDone => 6*(budget-workDone)-2
  | .advance budget workDone => 6*(budget-workDone)-3
  | .complete _ => 1

theorem RxPc.Called.left_poll {s : RxPoll} (h : s.pc.Called (lastCall s.log))
    (hpc : s.pc ≠ .idle) (answer : Bool) : (s.poll answer).pc.left < s.pc.left := by
  cases hs : s.pc with
  | idle => exact absurd hs hpc
  | loop budget workDone =>
    rw [RxPoll.poll,hs]
    dsimp only
    split_ifs with hlt <;> simp [RxPc.left,RxPoll.goto,hlt]
  | checkDone budget workDone =>
    rw [hs] at h
    have hlt := h.2
    rw [RxPoll.poll,hs]
    dsimp only
    split_ifs <;> simp [RxPc.left,RxPoll.goto,hlt]
  | take budget workDone | refill budget workDone | give budget workDone =>
    rw [hs] at h
    have hlt := h.2
    simp only [RxPoll.poll,hs,RxPc.left,RxPoll.goto]
    omega
  | advance budget workDone =>
    rw [hs] at h
    have hlt := h.2
    simp only [RxPoll.poll,hs,RxPc.left,RxPoll.goto]
    omega
  | complete workDone =>
    simp [RxPoll.poll,hs,RxPc.left,RxPoll.goto]

/-- A call returns whatever its allocations answer. -/
theorem RxAudit.returns {ring : ℕ → RxDesc} (hring : Allocated ring) {s : RxPoll}
    {gone ws : List (List UInt8)} (ha : RxAudit s) (h : RxInv ring s gone ws)
    {answers : List Bool} (hleft : s.pc.left ≤ answers.length) :
    (answers.foldl RxPoll.poll s).pc = .idle := by
  induction answers generalizing s gone ws with
  | nil =>
    have hzero : s.pc.left = 0 := Nat.le_zero.mp hleft
    have hcalled := ha.called
    cases hpc : s.pc <;> simp [hpc,RxPc.left,RxPc.Called] at hzero hcalled ⊢ <;> omega
  | cons answer answers ih =>
    obtain ⟨gone',ws',h'⟩ := h.poll hring answer
    refine ih (ha.poll h answer) h' ?_
    by_cases hpc : s.pc = .idle
    · rw [RxPoll.poll,hpc]
      dsimp only
      rw [hpc]
      exact Nat.zero_le _
    · have hlt := ha.called.left_poll hpc answer
      rw [List.length_cons] at hleft
      omega

theorem rxPoll_inv {ring : ℕ → RxDesc} (hring : Allocated ring) {s : RxPoll}
    (h : (rxPoll ring).Reachable s) : RxAudit s ∧ ∃ gone ws, RxInv ring s gone ws := by
  refine h.invariant (I := fun s => RxAudit s ∧ ∃ gone ws, RxInv ring s gone ws) ?_ ?_
  · rintro ⟨rxRing,rxHead,rxTail,irqMask,buffer,pc,device,loaded,log⟩ ⟨rfl,rfl,rfl,rfl,rfl,rfl⟩
    refine ⟨⟨trivial,throughout_nil⟩,[],[],?_⟩
    exact ⟨Slots.initial hring,⟨rfl,rfl,rfl,rfl⟩,Nat.succ_pos _,rfl,rfl,
      fun f hf => absurd hf.symm (Option.some_ne_none f),trivial⟩
  · rintro s a t - ⟨ha,gone,ws,hinv⟩ - ht
    cases a with
    | call budget =>
      obtain ⟨hpc,rfl⟩ := guarded_eq_some.mp ht
      have hfront : s.front = s.rxHead := RxPoll.front_of_ne (by simp [hpc])
      refine ⟨⟨?_,throughout_snoc.mpr ⟨ha.obeys,obeys_other rfl (by simp) (by simp)⟩⟩,gone,ws,
        hinv.silent rfl hfront.symm (by rw [hpc]; rfl) trivial rfl rfl rfl rfl⟩
      change RxPc.Called (lastCall (s.log ++ [.called budget])) (.loop budget 0)
      rw [lastCall_snoc]
      exact ⟨rfl,Nat.zero_le _⟩
    | poll answer =>
      obtain ⟨-,rfl⟩ := guarded_eq_some.mp ht
      exact ⟨ha.poll hinv answer,hinv.poll hring answer⟩
    | fill frame =>
      change RxPoll.step s (.fill frame) = some t at ht
      cases hbuf : (s.rxRing s.device).buf with
      | none => simp [RxPoll.step,hbuf] at ht
      | some buf =>
        simp only [RxPoll.step,hbuf] at ht
        obtain ⟨⟨howned,-⟩,rfl⟩ := guarded_eq_some.mp ht
        exact ⟨⟨ha.called,ha.obeys⟩,gone,ws,hinv.fill hring hbuf howned frame⟩
    | deliver =>
      change RxPoll.step s .deliver = some t at ht
      cases hl : s.loaded with
      | none => simp [RxPoll.step,hl] at ht
      | some frame =>
        simp only [RxPoll.step,hl] at ht
        obtain rfl := Option.some.inj ht
        refine ⟨⟨?_,throughout_snoc.mpr ⟨ha.obeys,obeys_other rfl (by simp) (by simp)⟩⟩,gone,_,
          hinv.deliver hl⟩
        change s.pc.Called (lastCall (s.log ++ [.arrived frame]))
        rw [lastCall_snoc]
        exact ha.called

/-- What holds between any two steps of my_poll and the device. -/
structure RxSound (ring : ℕ → RxDesc) (s : RxPoll) : Prop where
  /-- The frames given to the stack are the harvested ones for which there was memory. -/
  received : receptions s.log = kept (arrivals s.log) (harvests s.log)
  harvested : (harvests s.log).length ≤ (arrivals s.log).length
  obeys : Throughout Obeys s.log
  /-- Each harvested descriptor goes back, in order and as it was allocated. -/
  returned : (harvests s.log).length =
    (returns s.log).length+(if s.pc.recycling then 1 else 0)
  returned_eq : returns s.log = (List.range (returns s.log).length).map
    (fun i => (i % rxRingSize,ring (i % rxRingSize)))
  fixed : ∀ k < rxRingSize, (s.rxRing k).buf = (ring k).buf ∧ (s.rxRing k).dmaAddr = (ring k).dmaAddr
  /-- A descriptor is the device's or waits to be harvested, but for the one being recycled. -/
  placed : ∀ k < rxRingSize, ((s.rxRing k).ownedByHw = true ∧ (s.rxRing k).done = false) ∨
    ((s.rxRing k).ownedByHw = false ∧ (s.rxRing k).done = true) ∨
    (s.pc.recycling = true ∧ k = s.rxHead)
  returns_in_time : ∀ answers : List Bool, s.pc.left ≤ answers.length →
    (answers.foldl RxPoll.poll s).pc = .idle

theorem RxInv.placed {ring : ℕ → RxDesc} {s : RxPoll} {gone ws : List (List UInt8)}
    (h : RxInv ring s gone ws) {k : ℕ} (hk : k < rxRingSize) :
    ((s.rxRing k).ownedByHw = true ∧ (s.rxRing k).done = false) ∨
    ((s.rxRing k).ownedByHw = false ∧ (s.rxRing k).done = true) ∨
    (s.pc.recycling = true ∧ k = s.rxHead) := by
  cases howned : (s.rxRing k).ownedByHw with
  | true => exact .inl ⟨rfl,h.slots.idle k hk howned⟩
  | false =>
    obtain ⟨i,hi,rfl⟩ := exists_cell h.slots.front_lt hk
    have hlt : i < ws.length := by
      by_contra hge
      rw [(h.slots.owned_iff hi).mpr (not_lt.mp hge)] at howned
      contradiction
    by_cases hrec : i = 0 ∧ s.pc.recycling = true
    · obtain ⟨rfl,hrec⟩ := hrec
      refine .inr (.inr ⟨hrec,?_⟩)
      have hfront : s.front = s.rxHead := by
        refine RxPoll.front_of_ne fun budget workDone hpc => ?_
        rw [hpc] at hrec
        contradiction
      rw [cell_zero h.slots.front_lt,hfront]
    · refine .inr (.inl ⟨rfl,(h.slots.waiting i hlt fun h0 => ?_).1⟩)
      simpa [h0] using hrec

/-- Whatever the order of polls and frames, the budgets and the failed allocations. -/
theorem frames_received_exactly {answers : ℕ → RxAlloc} {ring : ℕ → RxDesc}
    (halloc : allocRxBuffers answers = .ok ring)
    (hdistinct : ∀ i < rxRingSize, ∀ j < rxRingSize, (answers i).buf = (answers j).buf → i = j)
    {s : RxPoll} (h : (rxPoll ring).Reachable s) :
    (∀ k < rxRingSize, ∃ buf dma, ring k = RxDesc.fresh buf dma) ∧ RxSound ring s := by
  have hring := allocRxBuffers_ok halloc hdistinct
  obtain ⟨ha,gone,ws,hinv⟩ := rxPoll_inv hring h
  have hreturns : (returns s.log).length = gone.length := by
    rw [hinv.books.returns_eq]
    simp
  refine ⟨hring.fresh,hinv.books.receptions_eq,hinv.books.harvests_le hinv.taken_ne_nil,ha.obeys,?_,?_,hinv.slots.fixed,
    fun k hk => hinv.placed hk,fun as hleft => ha.returns hring hinv hleft⟩
  · rw [hreturns]
    exact hinv.books.harvests_eq
  · rw [hreturns]
    exact hinv.books.returns_eq

/-- Every kmalloc and every mapping succeeds. -/
def allAllocated : ℕ → RxAlloc := fun k => ⟨some k,some 0⟩

/-- Two frames arrive; there is memory for the second one only; then my_poll is called again. -/
def twoFrames : List RxLabel :=
  [.fill [1,2,3],.deliver,.fill [4],.deliver,.call 1,.poll true,.poll true,.poll false,.poll true,
    .poll true,.poll true,.poll true,.call 64,.poll true,.poll true,.poll true,.poll true,.poll true,
    .poll true,.poll true,.poll true]

def RxPoll.initial (ring : ℕ → RxDesc) : RxPoll := ⟨ring,0,0,0,fun _ _ => 0,.idle,0,none,[]⟩

/-- The ring that comes of it. -/
def allocatedRing : ℕ → RxDesc :=
  match allocRxBuffers allAllocated with
  | .ok ring => ring
  | .error ring => ring

theorem frames_received_exactly_twoFrames : ∃ s, (rxPoll allocatedRing).run twoFrames
      (RxPoll.initial allocatedRing) = some s ∧
    receptions s.log = [[4]] ∧ harvests s.log = [false,true] ∧ RxSound allocatedRing s := by
  have hring : allocRxBuffers allAllocated = .ok allocatedRing := by rfl
  have hrun : ((rxPoll allocatedRing).run twoFrames (RxPoll.initial allocatedRing)).map
      (fun s => (receptions s.log,harvests s.log)) = some ([[4]],[false,true]) := by decide
  obtain ⟨s,hs,hout⟩ := Option.map_eq_some_iff.mp hrun
  obtain ⟨hreceptions,hharvests⟩ := Prod.mk.inj hout
  have hreach : (rxPoll allocatedRing).Reachable s :=
    .of_run (.init ⟨rfl,rfl,rfl,rfl,rfl,rfl⟩) hs
  exact ⟨s,hs,hreceptions,hharvests,
    (frames_received_exactly hring (fun i _ j _ hij => Option.some.inj hij) hreach).2⟩

end NetLab.SimpleNetdev
