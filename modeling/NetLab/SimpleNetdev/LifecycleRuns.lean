import NetLab.SimpleNetdev.Lifecycle

/-! Runs of a simple_netdev device: nothing is touched that is not held, and nothing stays held,
whichever of the calls of my_pci_probe fails and after however many receive buffers. -/
namespace NetLab.SimpleNetdev
open NetLab.Ring

variable {d d' : Device} {held : Finset Resource} {S : Finset ℕ}

abbrev accounts : Machine (Finset Resource) (Deed Resource) := inventory Resource.needs

/-! ### Buffers and their mappings -/

/-- A buffer and its mapping for each descriptor of `S`. -/
def buffersOf (S : Finset ℕ) : Finset Resource := S.image .rxBuffer ∪ S.image .rxMapping

@[simp] theorem rxBuffer_mem {i : ℕ} : .rxBuffer i ∈ buffersOf S ↔ i ∈ S := by simp [buffersOf]
@[simp] theorem rxMapping_mem {i : ℕ} : .rxMapping i ∈ buffersOf S ↔ i ∈ S := by simp [buffersOf]

theorem mem_buffersOf {r : Resource} :
    r ∈ buffersOf S ↔ ∃ i ∈ S, r = .rxBuffer i ∨ r = .rxMapping i := by
  simp only [buffersOf,Finset.mem_union,Finset.mem_image]
  constructor
  · rintro (⟨i,hi,rfl⟩ | ⟨i,hi,rfl⟩)
    · exact ⟨i,hi,.inl rfl⟩
    · exact ⟨i,hi,.inr rfl⟩
  · rintro ⟨i,hi,rfl | rfl⟩
    · exact .inl ⟨i,hi,rfl⟩
    · exact .inr ⟨i,hi,rfl⟩

theorem buffersOf_empty : buffersOf ∅ = ∅ := rfl

theorem buffersOf_insert (i : ℕ) : buffersOf (insert i S) =
    insert (.rxMapping i) (insert (.rxBuffer i) (buffersOf S)) := by
  ext r
  simp only [buffersOf,Finset.image_insert,Finset.mem_union,Finset.mem_insert]
  tauto

/-- What is held besides the buffers: the descriptors, and no buffer. -/
structure Plain (held : Finset Resource) : Prop where
  ring : .rxRing ∈ held
  buffers : ∀ i, .rxBuffer i ∉ held
  mappings : ∀ i, .rxMapping i ∉ held

theorem needs_mapping (q : Resource) (i : ℕ) : .rxMapping i ∉ q.needs := by
  cases q <;> simp [Resource.needs]

theorem needs_buffer {q : Resource} {i : ℕ} (h : .rxBuffer i ∈ q.needs) : q = .rxMapping i := by
  cases q <;> simp [Resource.needs] at h
  rw [h]

/-- kmalloc. -/
theorem kmalloc_perform (h : Plain held) {i : ℕ} (hi : i ∉ S) :
    Deed.perform Resource.needs (held ∪ buffersOf S) (.acquire (.rxBuffer i)) =
      some (insert (.rxBuffer i) (held ∪ buffersOf S)) := by
  refine if_pos ⟨?_,?_⟩
  · simp [h.buffers i,hi]
  · simp [Resource.needs,h.ring]

/-- kfree of a buffer that is not mapped. -/
theorem kfree_perform (h : Plain held) {i : ℕ} (hi : i ∉ S) :
    Deed.perform Resource.needs (insert (.rxBuffer i) (held ∪ buffersOf S))
      (.release (.rxBuffer i)) = some (held ∪ buffersOf S) := by
  have hb : Resource.rxBuffer i ∉ held ∪ buffersOf S := by simp [h.buffers i,hi]
  rw [Deed.perform,Finset.erase_insert hb]
  refine if_pos ⟨Finset.mem_insert_self _ _,fun q hq hneeds => ?_⟩
  rw [needs_buffer hneeds] at hq
  simp [h.mappings i,hi] at hq

/-- kmalloc and dma_map_single for one more descriptor. -/
theorem acquire_buffer (h : Plain held) {i : ℕ} (hi : i ∉ S) :
    accounts.run [.acquire (.rxBuffer i),.acquire (.rxMapping i)] (held ∪ buffersOf S) =
      some (held ∪ buffersOf (insert i S)) := by
  have hmapping : Deed.perform Resource.needs (insert (.rxBuffer i) (held ∪ buffersOf S))
      (.acquire (.rxMapping i)) =
      some (insert (.rxMapping i) (insert (.rxBuffer i) (held ∪ buffersOf S))) := by
    refine if_pos ⟨?_,?_⟩
    · simp [h.mappings i,hi]
    · simp [Resource.needs]
  rw [Inventory.run_deed (kmalloc_perform h hi),Inventory.run_deed hmapping,buffersOf_insert,
    Finset.union_insert,Finset.union_insert]
  rfl

/-- kmalloc for one more descriptor, and kfree when the mapping fails. -/
theorem retract_buffer (h : Plain held) {i : ℕ} (hi : i ∉ S) :
    accounts.run [.acquire (.rxBuffer i),.release (.rxBuffer i)] (held ∪ buffersOf S) =
      some (held ∪ buffersOf S) := by
  rw [Inventory.run_deed (kmalloc_perform h hi),Inventory.run_deed (kfree_perform h hi)]
  rfl

/-- dma_unmap_single and kfree for one descriptor. -/
theorem release_buffer (h : Plain held) {i : ℕ} (hi : i ∉ S) :
    accounts.run [.release (.rxMapping i),.release (.rxBuffer i)] (held ∪ buffersOf (insert i S)) =
      some (held ∪ buffersOf S) := by
  have hm : Resource.rxMapping i ∉ insert (Resource.rxBuffer i) (held ∪ buffersOf S) := by
    simp [h.mappings i,hi]
  have hmapping : Deed.perform Resource.needs
      (insert (.rxMapping i) (insert (.rxBuffer i) (held ∪ buffersOf S))) (.release (.rxMapping i)) =
      some (insert (.rxBuffer i) (held ∪ buffersOf S)) := by
    rw [Deed.perform,Finset.erase_insert hm]
    exact if_pos ⟨Finset.mem_insert_self _ _,fun q _ => needs_mapping q i⟩
  rw [buffersOf_insert,Finset.union_insert,Finset.union_insert,Inventory.run_deed hmapping,
    Inventory.run_deed (kfree_perform h hi)]
  rfl

theorem unwindRx_run (h : Plain held) (i : ℕ) :
    accounts.run (unwindRxDeeds i) (held ∪ buffersOf (Finset.range i)) = some held := by
  induction i with
  | zero =>
    rw [Finset.range_zero,buffersOf_empty,Finset.union_empty]
    rfl
  | succ i ih =>
    rw [unwindRxDeeds,Machine.run_append,Finset.range_add_one,
      release_buffer h (by simp),Option.bind_some,ih]

/-- my_alloc_rx_buffers has a buffer and a mapping for every descriptor when it succeeds, and none
at all when it fails. -/
theorem allocRx_run (h : Plain held) (answers : ℕ → RxAlloc) (n i : ℕ) (ring : ℕ → RxDesc) :
    (∀ ring', allocRxFrom answers n i ring = .ok ring' →
      accounts.run (allocRxDeeds answers n i) (held ∪ buffersOf (Finset.range i)) =
        some (held ∪ buffersOf (Finset.range (i+n)))) ∧
    ∀ ring', allocRxFrom answers n i ring = .error ring' →
      accounts.run (allocRxDeeds answers n i) (held ∪ buffersOf (Finset.range i)) = some held := by
  induction n generalizing i ring with
  | zero => exact ⟨fun _ _ => rfl,fun _ he => by simp [allocRxFrom] at he⟩
  | succ n ih =>
    cases hbuf : (answers i).buf with
    | none =>
      simp only [allocRxFrom,allocRxDeeds,hbuf]
      exact ⟨fun _ he => by simp at he,fun _ _ => unwindRx_run h i⟩
    | some buf =>
      cases hdma : (answers i).mapping with
      | none =>
        simp only [allocRxFrom,allocRxDeeds,hbuf,hdma]
        refine ⟨fun _ he => by simp at he,fun _ _ => ?_⟩
        rw [Machine.run_append,retract_buffer h (by simp),Option.bind_some,unwindRx_run h i]
      | some dma =>
        simp only [allocRxFrom,allocRxDeeds,hbuf,hdma]
        obtain ⟨hok,herror⟩ := ih (i+1) (Function.update ring i (.fresh buf dma))
        rw [Machine.run_append,acquire_buffer h (by simp),← Finset.range_add_one,Option.bind_some]
        have hsum : i+(n+1) = i+1+n := by omega
        rw [hsum]
        exact ⟨hok,herror⟩

/-- my_free_rx_buffers, when every descriptor has a buffer. -/
theorem freeRx_run (h : Plain held) {ring : ℕ → RxDesc}
    (hring : ∀ i < rxRingSize, (ring i).buf ≠ none) :
    accounts.run (freeRxBuffers ring) (held ∪ buffersOf (Finset.range rxRingSize)) = some held := by
  have hslot : ∀ i < rxRingSize, freeRxSlot ring i =
      [.release (.rxMapping i),.release (.rxBuffer i)] := by
    intro i hi
    obtain ⟨buf,hbuf⟩ := Option.ne_none_iff_exists'.mp (hring i hi)
    rw [freeRxSlot,hbuf]
  have hfrom : ∀ n i, i+n = rxRingSize →
      accounts.run ((List.range' i n).flatMap (freeRxSlot ring))
        (held ∪ buffersOf (Finset.Ico i rxRingSize)) = some held := by
    intro n
    induction n with
    | zero =>
      intro i hi
      rw [← hi,Nat.add_zero,Finset.Ico_self,buffersOf_empty,Finset.union_empty]
      rfl
    | succ n ih =>
      intro i hi
      rw [List.range'_succ,List.flatMap_cons,Machine.run_append,hslot i (by omega),
        ← Finset.insert_Ico_add_one_left_eq_Ico (by omega),release_buffer h (by simp),
        Option.bind_some,ih (i+1) (by omega)]
  have hall := hfrom rxRingSize 0 (Nat.zero_add _)
  rwa [← Finset.range_eq_Ico,← List.range_eq_range'] at hall

/-! ### my_pci_probe -/

/-- The descriptors and what is below them. -/
def rings : Finset Resource := {.device,.regions,.netdev,.mmio,.napi,.rxRing,.txRing}

theorem rings_plain : Plain rings := by
  constructor
  · decide
  · intro i
    simp [rings]
  · intro i
    simp [rings]

/-- All receive buffers. -/
abbrev allBuffers : Finset Resource := buffersOf (Finset.range rxRingSize)

/-- A log that neither moves the buffers nor the ring they are in. -/
def Aside (log : Deeds) : Bool :=
  log.all fun deed => match deed with
    | .acquire (.rxBuffer _) | .acquire (.rxMapping _) => false
    | .release (.rxBuffer _) | .release (.rxMapping _) | .release .rxRing => false
    | _ => true

/-- Such a log does with the buffers what it does without them. -/
theorem run_aside {log : Deeds} {later : Finset Resource} (hrun : accounts.run log held = some later)
    (haside : Aside log = true) :
    accounts.run log (held ∪ buffersOf S) = some (later ∪ buffersOf S) := by
  have hentry := List.all_eq_true.mp haside
  refine Inventory.run_frame hrun ?_ ?_
  · intro r hr
    obtain ⟨i,-,rfl | rfl⟩ := mem_buffersOf.mp hr
    · exact ⟨fun h => by simpa using hentry _ h,fun h => by simpa using hentry _ h⟩
    · exact ⟨fun h => by simpa using hentry _ h,fun h => by simpa using hentry _ h⟩
  · intro q hq r hr h
    have he := hentry _ h
    obtain ⟨i,-,rfl | rfl⟩ := mem_buffersOf.mp hq
    · obtain rfl : r = .rxRing := by simpa [Resource.needs] using hr
      simp at he
    · obtain rfl : r = .rxBuffer i := by simpa [Resource.needs] using hr
      simp at he

/-- my_pci_probe up to request_irq gives back all it got, or has everything up to the interrupt. -/
structure Probed (ans : ProbeAnswers) (outcome : Deeds × Option (ℕ → RxDesc)) : Prop where
  failed : outcome.2 = none → accounts.run outcome.1 ∅ = some ∅
  reached : ∀ ring, outcome.2 = some ring → allocRxBuffers ans.rxBuffers = .ok ring ∧
    accounts.run outcome.1 ∅ = some (rings ∪ {.irq} ∪ allBuffers)

theorem Probed.of_failed {ans : ProbeAnswers} {deeds : Deeds}
    (h : accounts.run deeds ∅ = some ∅) : Probed ans (deeds,none) :=
  ⟨fun _ => h,fun _ he => by cases he⟩

theorem ringsStart_run : accounts.run (uptoNapi ++ [.acquire .rxRing,.acquire .txRing]) ∅ =
    some (rings ∪ buffersOf (Finset.range 0)) := by decide

theorem errTxDesc_run : accounts.run errTxDesc rings = some ∅ := by decide

theorem buffers_present {answers : ℕ → RxAlloc} {ring : ℕ → RxDesc}
    (h : allocRxBuffers answers = .ok ring) : ∀ i < rxRingSize, (ring i).buf ≠ none := by
  intro i hi
  obtain ⟨buf,dma,-,hring⟩ := (allocRxFrom_ok h).1 i (Nat.zero_le i) (by omega)
  rw [hring]
  simp [RxDesc.fresh]

theorem errRxBuffers_run {ring : ℕ → RxDesc} (h : ∀ i < rxRingSize, (ring i).buf ≠ none) :
    accounts.run (errRxBuffers ring) (rings ∪ allBuffers) = some ∅ := by
  rw [errRxBuffers,Machine.run_append,freeRx_run rings_plain h,Option.bind_some,errTxDesc_run]

theorem probeBuffers_run (ans : ProbeAnswers) : Probed ans (probeBuffers ans) := by
  obtain ⟨hok,herror⟩ := allocRx_run rings_plain ans.rxBuffers rxRingSize 0 (fun _ => RxDesc.zero)
  unfold probeBuffers
  dsimp only
  cases halloc : allocRxBuffers ans.rxBuffers with
  | error ring =>
    refine .of_failed ?_
    rw [Machine.run_append,Machine.run_append,ringsStart_run,Option.bind_some,herror ring halloc,
      Option.bind_some,errTxDesc_run]
  | ok ring =>
    have hgot : accounts.run (uptoNapi ++ [.acquire .rxRing,.acquire .txRing] ++
        allocRxDeeds ans.rxBuffers rxRingSize 0) ∅ = some (rings ∪ allBuffers) := by
      rw [Machine.run_append,ringsStart_run,Option.bind_some,hok ring halloc,Nat.zero_add]
    dsimp only
    by_cases hirq : (!ans.irq) = true
    · rw [if_pos hirq]
      refine .of_failed ?_
      rw [Machine.run_append,hgot,Option.bind_some,errRxBuffers_run (buffers_present halloc)]
    · rw [if_neg hirq]
      refine ⟨fun he => (by cases he),fun ring' he => ?_⟩
      obtain rfl := Option.some.inj he
      have hacquire : accounts.run [.acquire .irq] (rings ∪ allBuffers) =
          some (rings ∪ {.irq} ∪ allBuffers) := run_aside (by decide) rfl
      refine ⟨halloc,?_⟩
      rw [Machine.run_append,hgot,Option.bind_some,hacquire]

theorem probeRings_run (ans : ProbeAnswers) : Probed ans (probeRings ans) := by
  have hbuffers := probeBuffers_run ans
  unfold probeRings
  split_ifs
  case neg => exact hbuffers
  all_goals exact .of_failed (by decide)

/-! ### The rings of a device -/

/-- Every receive descriptor has its buffer, and my_poll looks at one of them. -/
structure RxStocked (rx : RxPoll) : Prop where
  head : rx.rxHead < rxRingSize
  buffers : ∀ i < rxRingSize, (rx.rxRing i).buf ≠ none

/-- Writing other fields of a descriptor keeps its buffer. -/
theorem RxStocked.update {rx : RxPoll} (h : RxStocked rx) {desc : RxDesc} {j : ℕ}
    (hbuf : desc.buf = (rx.rxRing j).buf) :
    ∀ i < rxRingSize, (Function.update rx.rxRing j desc i).buf ≠ none := by
  intro i hi
  by_cases hij : i = j
  · subst hij
    rw [Function.update_self,hbuf]
    exact h.buffers i hi
  · rw [Function.update_of_ne hij]
    exact h.buffers i hi

theorem RxStocked.step {rx rx' : RxPoll} (h : RxStocked rx) {label : RxLabel}
    (hstep : rx.step label = some rx') : RxStocked rx' := by
  have hnext : nextRx rx.rxHead < rxRingSize := Nat.mod_lt _ (by decide)
  cases label with
  | call budget =>
    obtain ⟨-,rfl⟩ := guarded_eq_some.mp hstep
    exact ⟨h.head,h.buffers⟩
  | poll answer =>
    obtain ⟨-,rfl⟩ := guarded_eq_some.mp hstep
    unfold RxPoll.poll
    cases hpc : rx.pc with
    | idle => exact h
    | loop budget workDone => dsimp only; split_ifs <;> exact ⟨h.head,h.buffers⟩
    | checkDone budget workDone => dsimp only; split_ifs <;> exact ⟨h.head,h.buffers⟩
    | take budget workDone => exact ⟨h.head,h.buffers⟩
    | refill budget workDone => exact ⟨h.head,h.update rfl⟩
    | give budget workDone => exact ⟨h.head,h.update rfl⟩
    | advance budget workDone => exact ⟨hnext,h.buffers⟩
    | complete workDone => exact ⟨h.head,h.buffers⟩
  | fill frame =>
    cases hbuf : (rx.rxRing rx.device).buf with
    | none => simp [RxPoll.step,hbuf] at hstep
    | some buf =>
      simp only [RxPoll.step,hbuf] at hstep
      obtain ⟨-,rfl⟩ := guarded_eq_some.mp hstep
      exact ⟨h.head,h.update rfl⟩
  | deliver =>
    cases hloaded : rx.loaded with
    | none => simp [RxPoll.step,hloaded] at hstep
    | some frame =>
      simp only [RxPoll.step,hloaded] at hstep
      obtain rfl := Option.some.inj hstep
      exact ⟨h.head,h.update rfl⟩

/-- A poll that nobody calls does not begin. -/
theorem poll_stays_idle {rx rx' : RxPoll} (hidle : rx.pc = .idle) {label : RxLabel}
    (hcall : ∀ budget, label ≠ .call budget) (hstep : rx.step label = some rx') :
    rx'.pc = .idle ∧ ∀ answer, label ≠ .poll answer := by
  cases label with
  | call budget => exact absurd rfl (hcall budget)
  | poll answer =>
    obtain ⟨hne,-⟩ := guarded_eq_some.mp hstep
    exact absurd hidle hne
  | fill frame =>
    cases hbuf : (rx.rxRing rx.device).buf with
    | none => simp [RxPoll.step,hbuf] at hstep
    | some buf =>
      simp only [RxPoll.step,hbuf] at hstep
      obtain ⟨-,rfl⟩ := guarded_eq_some.mp hstep
      exact ⟨hidle,by simp⟩
  | deliver =>
    cases hloaded : rx.loaded with
    | none => simp [RxPoll.step,hloaded] at hstep
    | some frame =>
      simp only [RxPoll.step,hloaded] at hstep
      obtain rfl := Option.some.inj hstep
      exact ⟨hidle,by simp⟩

/-- The transmit ring in use. -/
def TxStocked (p : Priv) : Prop := ∃ flights gone, Loaded p flights ∧
  custody.Ledger p.log gone (flights.map Flight.packet)

theorem TxStocked.step {p q : Priv} (h : TxStocked p) {label : TxLabel} (hlabel : label ≠ .remove)
    (hstep : p.txStep label = some q) : TxStocked q := by
  obtain ⟨flights,gone,hload,hl⟩ := h
  unfold Priv.txStep at hstep
  rw [if_pos hload.allocated] at hstep
  cases label with
  | xmit skb mapping =>
    obtain ⟨flights',hload,hl⟩ := startXmit_spec hload hl skb mapping
    rw [← Option.some.inj hstep]
    exact ⟨flights',gone,hload,hl⟩
  | complete k =>
    obtain ⟨⟨hk,howned⟩,rfl⟩ := guarded_eq_some.mp hstep
    obtain ⟨flights',hload',hpackets⟩ := hload.complete hk howned
    refine ⟨flights',gone,hload',?_⟩
    rw [hpackets]
    exact hl
  | clean =>
    obtain ⟨r,left,released,hr,-,-,hr',hrl,-⟩ := cleanTx_spec hload hl
    obtain rfl := Option.some.inj (hr.symm.trans hstep)
    exact ⟨left,_,hr',hrl⟩
  | remove => contradiction

/-- Other fields of the private data. -/
theorem TxStocked.frame {p : Priv} (h : TxStocked p) (txTail : ℕ) (stopped : Bool) :
    TxStocked { p with txTail, queueStopped := stopped } := by
  obtain ⟨flights,gone,hload,hl⟩ := h
  exact ⟨flights,gone,hload.frame txTail stopped p.log,hl⟩

/-- A transmit ring that no packet has come to. -/
def TxUntouched (p : Priv) : Prop := Loaded p [] ∧ p.log = []

theorem TxUntouched.ready (txTail : ℕ) : TxUntouched (Priv.ringReady txTail) :=
  ⟨⟨rfl,txRingSize_pos,txRingSize_pos,rfl,Holds.empty fun _ _ => ⟨rfl,rfl,rfl⟩⟩,rfl⟩

theorem TxUntouched.stocked {p : Priv} (h : TxUntouched p) : TxStocked p := by
  refine ⟨[],[],h.1,?_⟩
  rw [h.2]
  exact Custody.Ledger.empty

theorem TxUntouched.step {p q : Priv} (h : TxUntouched p) {label : TxLabel}
    (hxmit : ∀ skb mapping, label ≠ .xmit skb mapping) (hremove : label ≠ .remove)
    (hstep : p.txStep label = some q) : TxUntouched q := by
  obtain ⟨hload,hlog⟩ := h
  unfold Priv.txStep at hstep
  rw [if_pos hload.allocated] at hstep
  cases label with
  | xmit skb mapping => exact absurd rfl (hxmit skb mapping)
  | complete k =>
    obtain ⟨⟨hk,howned⟩,-⟩ := guarded_eq_some.mp hstep
    obtain ⟨i,hi,-⟩ := hload.flight_at hk fun hidle => by simp [hidle.2.1] at howned
    simp at hi
  | clean =>
    have hloop : p.cleanLoop txRingSize = some p := by
      rw [show txRingSize = 63+1 from rfl,Priv.cleanLoop,if_neg]
      exact fun hgo => hgo.1 hload.clean_empty
    simp only [Priv.cleanTx,hloop,Option.map_some,Option.some.injEq] at hstep
    subst hstep
    unfold Priv.wake
    split_ifs
    · exact ⟨hload.frame _ _ _,hlog⟩
    · exact ⟨hload,hlog⟩
  | remove => contradiction

/-- The error path of my_pci_probe drops a transmit ring that no packet has come to. -/
theorem TxUntouched.dropped {p : Priv} (h : TxUntouched p) : TxEnded p.freeDescRings := by
  obtain ⟨hload,hlog⟩ := h
  refine ⟨rfl,fun k hk => ?_,?_⟩
  · exact (hload.slots.rest k hk (by simp [Within])).1
  · change custody.Settled p.log
    rw [hlog]
    exact ⟨List.Perm.nil,List.Perm.nil⟩

/-! ### Steps of the device -/

/-- What is known of a device at its stage. -/
structure DeviceInv (d : Device) : Prop where
  down : d.stage ≠ .bound → d.iface = .down
  idle : d.iface = .down → d.rx.pc = .idle
  gone : d.stage = .unbound → TxEnded d.tx ∧ ∀ i < rxRingSize, (d.rx.rxRing i).buf = none
  stocked : d.stage ≠ .unbound → TxStocked d.tx ∧ RxStocked d.rx
  untouched : d.stage = .probing → TxUntouched d.tx

/-- What is held at a stage. -/
def Stage.holding : Stage → Finset Resource
  | .unbound => ∅
  | .probing | .unregistered => rings ∪ {.irq} ∪ allBuffers
  | .bound => rings ∪ {.irq,.registration} ∪ allBuffers
  | .irqFreed => rings ∪ allBuffers

/-- The deeds of a step lead from what is held before to what is held after it. -/
def Accounted (d d' : Device) : Prop := ∃ deeds, d'.log = d.log ++ deeds ∧
  accounts.run deeds d.stage.holding = some d'.stage.holding

theorem probe_step (hi : DeviceInv d) {ans : ProbeAnswers} (h : d.step (.probe ans) = some d') :
    DeviceInv d' ∧ Accounted d d' := by
  simp only [Device.step] at h
  by_cases hstage : d.stage = .unbound
  · rw [if_pos hstage] at h
    have hrun := probeRings_run ans
    unfold Accounted
    rw [hstage]
    generalize probeRings ans = outcome at h hrun
    obtain ⟨deeds,got⟩ := outcome
    cases got with
    | none =>
      obtain rfl := Option.some.inj h
      refine ⟨⟨hi.down,hi.idle,hi.gone,hi.stocked,hi.untouched⟩,deeds,rfl,?_⟩
      rw [Device.note,hstage]
      exact hrun.failed rfl
    | some ring =>
      obtain rfl := Option.some.inj h
      obtain ⟨halloc,hrun⟩ := hrun.reached ring rfl
      have hready := TxUntouched.ready ans.txTail
      refine ⟨⟨fun _ => rfl,fun _ => rfl,fun h => by contradiction,fun _ => ⟨hready.stocked,?_⟩,
        fun _ => hready⟩,deeds,rfl,hrun⟩
      exact ⟨Nat.succ_pos 63,buffers_present halloc⟩
  · rw [if_neg hstage] at h
    contradiction

/-- my_free_rx_buffers leaves no buffer. -/
theorem dropRx_buf (rx : RxPoll) : ∀ i < rxRingSize, ((Device.dropRx rx).rxRing i).buf = none := by
  intro i hi
  simp only [Device.dropRx,if_pos hi]

theorem errIrq_run {ring : ℕ → RxDesc} (h : ∀ i < rxRingSize, (ring i).buf ≠ none) :
    accounts.run ([.use .mmio] ++ errIrq ring) (rings ∪ {.irq} ∪ allBuffers) = some ∅ := by
  have hirq : accounts.run [.use .mmio,.use .mmio,.release .irq] (rings ∪ {.irq} ∪ allBuffers) =
      some (rings ∪ allBuffers) := run_aside (by decide) rfl
  have happend : ([.use .mmio] ++ errIrq ring : Deeds) =
      [.use .mmio,.use .mmio,.release .irq] ++ errRxBuffers ring := rfl
  rw [happend,Machine.run_append,hirq,Option.bind_some,errRxBuffers_run h]

theorem finishProbe_step (hi : DeviceInv d) {register : Bool}
    (h : d.step (.finishProbe register) = some d') : DeviceInv d' ∧ Accounted d d' := by
  simp only [Device.step] at h
  by_cases hstage : d.stage = .probing
  · rw [if_pos hstage] at h
    have hdown : d.iface = .down := hi.down (by rw [hstage]; decide)
    obtain ⟨htx,hrx⟩ := hi.stocked (by rw [hstage]; decide)
    have huntouched := hi.untouched hstage
    unfold Accounted
    rw [hstage]
    cases register with
    | true =>
      obtain rfl := Option.some.inj h
      refine ⟨⟨fun _ => hdown,hi.idle,fun h => by contradiction,fun _ => ⟨?_,?_⟩,
        fun h => by contradiction⟩,_,rfl,run_aside (by decide) rfl⟩
      · exact htx.frame _ _
      · exact ⟨hrx.head,hrx.buffers⟩
    | false =>
      obtain rfl := Option.some.inj h
      refine ⟨⟨fun _ => hdown,hi.idle,fun _ => ⟨?_,dropRx_buf _⟩,fun h => absurd rfl h,
        fun h => by contradiction⟩,_,rfl,errIrq_run hrx.buffers⟩
      have hrung : TxUntouched d.tx.ringDoorbell := ⟨huntouched.1.frame _ _ _,huntouched.2⟩
      exact hrung.dropped
  · rw [if_neg hstage] at h
    contradiction

/-- The transmit ring is held while it is there, the interrupt while it can come. -/
theorem held_bound {stage : Stage} (h : stage ≠ .unbound) {r : Resource} (hr : r ∈ rings) :
    r ∈ stage.holding := by
  have hmem : r ∈ rings ∪ {.irq} ∪ allBuffers ∧ r ∈ rings ∪ {.irq,.registration} ∪ allBuffers ∧
      r ∈ rings ∪ allBuffers := by simp [hr]
  cases stage with
  | unbound => contradiction
  | probing => exact hmem.1
  | bound => exact hmem.2.1
  | unregistered => exact hmem.1
  | irqFreed => exact hmem.2.2

theorem held_irq {stage : Stage} (h : stage.listening = true) : .irq ∈ stage.holding := by
  cases stage <;> first | contradiction | simp [Stage.holding]

theorem held_buffer {stage : Stage} (h : stage ≠ .unbound) {i : ℕ} (hi : i < rxRingSize) :
    .rxBuffer i ∈ stage.holding ∧ .rxMapping i ∈ stage.holding := by
  cases stage <;> first | contradiction | simp [Stage.holding,hi]

/-- Nobody transmits or cleans on an unbound device: my_stop and free_irq have been called. -/
theorem DeviceInv.tx_bound (hi : DeviceInv d) {label : TxLabel} (hadmits : d.admitsTx label = true) :
    d.stage ≠ .unbound := by
  intro hstage
  have hdown : d.iface = .down := hi.down (by rw [hstage]; decide)
  cases label with
  | xmit skb mapping => simp [Device.admitsTx,hdown] at hadmits
  | clean => simp [Device.admitsTx,hstage,Stage.listening] at hadmits
  | complete i => simp [Device.admitsTx,hstage] at hadmits
  | remove => contradiction

theorem tx_step (hi : DeviceInv d) {label : TxLabel} (h : d.step (.tx label) = some d') :
    DeviceInv d' ∧ Accounted d d' := by
  simp only [Device.step] at h
  by_cases hadmits : d.admitsTx label = true
  · rw [if_pos hadmits] at h
    obtain ⟨tx,htx,rfl⟩ := Option.map_eq_some_iff.mp h
    have hbound := hi.tx_bound hadmits
    have hremove : label ≠ .remove := by
      rintro rfl
      contradiction
    obtain ⟨hstocked,hrx⟩ := hi.stocked hbound
    refine ⟨⟨hi.down,hi.idle,fun h => absurd h hbound,fun _ => ⟨hstocked.step hremove htx,hrx⟩,
      fun hstage => ?_⟩,_,rfl,?_⟩
    · have hdown : d.iface = .down := hi.down (by rw [hstage]; decide)
      have hxmit : ∀ skb mapping, label ≠ .xmit skb mapping := by
        rintro skb mapping rfl
        simp [Device.admitsTx,hdown] at hadmits
      exact (hi.untouched hstage).step hxmit hremove htx
    · cases label with
      | xmit skb mapping =>
        have hup : d.iface = .up := by simpa [Device.admitsTx] using hadmits
        have hstage : d.stage = .bound := by
          by_contra hstage
          rw [hi.down hstage] at hup
          contradiction
        refine OnlyUses.run (.all fun r hr => ?_) fun r hr => hr
        rw [hstage]
        fin_cases hr <;> simp [Stage.holding,rings]
      | clean =>
        have hirq : .irq ∈ d.stage.holding := held_irq hadmits
        refine OnlyUses.run (.all fun r hr => ?_) fun r hr => hr
        obtain rfl | hr := List.mem_cons.mp hr
        · exact hirq
        · refine held_bound hbound ?_
          fin_cases hr <;> decide
      | complete i => rfl
      | remove => contradiction
  · rw [if_neg hadmits] at h
    contradiction

/-- On an unbound device my_poll is not called, and none is still running: my_stop has waited for
the last one. -/
theorem DeviceInv.rx_bound (hi : DeviceInv d) {label : RxLabel} (hadmits : d.admitsRx label = true)
    {rx : RxPoll} (hstep : d.rx.step label = some rx) : d.stage ≠ .unbound := by
  intro hstage
  have hdown : d.iface = .down := hi.down (by rw [hstage]; decide)
  cases label with
  | call budget => simp [Device.admitsRx,hdown] at hadmits
  | poll answer =>
    obtain ⟨hrunning,-⟩ := guarded_eq_some.mp hstep
    exact hrunning (hi.idle hdown)
  | fill frame => simp [Device.admitsRx,hstage] at hadmits
  | deliver => simp [Device.admitsRx,hstage] at hadmits

theorem rx_step (hi : DeviceInv d) {label : RxLabel} (h : d.step (.rx label) = some d') :
    DeviceInv d' ∧ Accounted d d' := by
  simp only [Device.step] at h
  by_cases hadmits : d.admitsRx label = true
  · rw [if_pos hadmits] at h
    obtain ⟨rx,hrx,rfl⟩ := Option.map_eq_some_iff.mp h
    have hbound := hi.rx_bound hadmits hrx
    obtain ⟨htx,hstocked⟩ := hi.stocked hbound
    refine ⟨⟨hi.down,fun hdown => ?_,fun h => absurd h hbound,
      fun _ => ⟨htx,hstocked.step hrx⟩,hi.untouched⟩,_,rfl,?_⟩
    · have hcall : ∀ budget, label ≠ .call budget := by
        rintro budget rfl
        have hdown' : d.iface = .down := hdown
        simp [Device.admitsRx,hdown'] at hadmits
      exact (poll_stays_idle (hi.idle hdown) hcall hrx).1
    · have hrings : ∀ r ∈ rings, r ∈ d.stage.holding := fun r hr => held_bound hbound hr
      obtain ⟨hbuffer,hmapping⟩ := held_buffer hbound hstocked.head
      cases label with
      | call budget =>
        refine OnlyUses.run (.all fun r hr => hrings r ?_) fun r hr => hr
        fin_cases hr <;> decide
      | poll answer =>
        refine OnlyUses.run (OnlyUses.append (.all fun r hr => hrings r ?_) ?_) fun r hr => hr
        · fin_cases hr <;> decide
        · cases d.rx.pc with
          | take budget workDone =>
            refine .all fun r hr => ?_
            fin_cases hr
            · exact hmapping
            · exact hbuffer
          | refill budget workDone => exact .one hmapping
          | _ => exact .nil
      | fill frame => rfl
      | deliver => rfl
  · rw [if_neg hadmits] at h
    contradiction

theorem ndo_step (hi : DeviceInv d) (label : DeviceLabel) (h : d.ndoStep label = some d') :
    DeviceInv d' ∧ Accounted d d' := by
  cases label with
  | «open» =>
    obtain ⟨⟨hstage,hdown⟩,rfl⟩ := guarded_eq_some.mp h
    obtain ⟨htx,hrx⟩ := hi.stocked (by rw [hstage]; decide)
    refine ⟨⟨fun h => absurd hstage h,fun h => by contradiction,fun h => ?_,
      fun _ => ⟨htx.frame _ _,⟨hrx.head,hrx.buffers⟩⟩,fun h => ?_⟩,_,rfl,?_⟩
    · exact absurd (hstage.symm.trans h) (by decide)
    · exact absurd (hstage.symm.trans h) (by decide)
    · rw [hstage]
      exact run_aside (by decide) rfl
  | stop =>
    obtain ⟨hup,rfl⟩ := guarded_eq_some.mp h
    have hstage : d.stage = .bound := by
      by_contra hstage
      rw [hi.down hstage] at hup
      contradiction
    obtain ⟨htx,hrx⟩ := hi.stocked (by rw [hstage]; decide)
    refine ⟨⟨fun h => absurd hstage h,fun h => by contradiction,fun h => ?_,
      fun _ => ⟨htx.frame _ _,⟨hrx.head,hrx.buffers⟩⟩,fun h => ?_⟩,_,rfl,?_⟩
    · exact absurd (hstage.symm.trans h) (by decide)
    · exact absurd (hstage.symm.trans h) (by decide)
    · rw [hstage]
      exact run_aside (by decide) rfl
  | napiDisable =>
    obtain ⟨⟨hstopping,hidle⟩,rfl⟩ := guarded_eq_some.mp h
    have hstage : d.stage = .bound := by
      by_contra hstage
      rw [hi.down hstage] at hstopping
      contradiction
    refine ⟨⟨fun _ => rfl,fun _ => hidle,hi.gone,hi.stocked,hi.untouched⟩,_,rfl,?_⟩
    rw [hstage]
    exact run_aside (by decide) rfl
  | spurious =>
    obtain ⟨hlisten,rfl⟩ := guarded_eq_some.mp h
    refine ⟨⟨hi.down,hi.idle,hi.gone,hi.stocked,hi.untouched⟩,_,rfl,?_⟩
    refine OnlyUses.run (.all fun r hr => ?_) fun r hr => hr
    obtain rfl | hr := List.mem_cons.mp hr
    · exact held_irq hlisten
    · refine held_bound (by rintro hstage; rw [hstage] at hlisten; contradiction) ?_
      fin_cases hr <;> decide
  | scheduleNapi =>
    obtain ⟨hlisten,rfl⟩ := guarded_eq_some.mp h
    refine ⟨⟨hi.down,hi.idle,hi.gone,fun hbound => ?_,hi.untouched⟩,_,rfl,?_⟩
    · obtain ⟨htx,hrx⟩ := hi.stocked hbound
      exact ⟨htx,hrx.head,hrx.buffers⟩
    · refine OnlyUses.run (.all fun r hr => ?_) fun r hr => hr
      obtain rfl | hr := List.mem_cons.mp hr
      · exact held_irq hlisten
      · refine held_bound (by rintro hstage; rw [hstage] at hlisten; contradiction) ?_
        fin_cases hr <;> decide
  | _ => contradiction

/-- The last steps of my_pci_remove give back everything. -/
theorem teardown_run {ring : ℕ → RxDesc} (h : ∀ i < rxRingSize, (ring i).buf ≠ none) :
    accounts.run ([.release .napi,.use .txRing] ++ freeRxBuffers ring ++
      [.release .rxRing,.release .txRing,.release .mmio,.release .netdev,.release .regions,
        .release .device]) (rings ∪ allBuffers) = some ∅ := by
  have hnapi : accounts.run [.release .napi,.use .txRing] (rings ∪ allBuffers) =
      some (rings.erase .napi ∪ allBuffers) := run_aside (by decide) rfl
  have hplain : Plain (rings.erase .napi) := by
    refine ⟨by decide,fun i => ?_,fun i => ?_⟩
    · simp [rings]
    · simp [rings]
  have hrest : accounts.run [.release .rxRing,.release .txRing,.release .mmio,.release .netdev,
      .release .regions,.release .device] (rings.erase .napi) = some ∅ := by decide
  rw [Machine.run_append,Machine.run_append,hnapi,Option.bind_some,freeRx_run hplain h,
    Option.bind_some,hrest]

theorem remove_step (hi : DeviceInv d) (label : DeviceLabel) (h : d.removeStep label = some d') :
    DeviceInv d' ∧ Accounted d d' := by
  unfold Accounted
  cases label with
  | unregisterNetdev =>
    obtain ⟨⟨hstage,hdown⟩,rfl⟩ := guarded_eq_some.mp h
    obtain ⟨htx,hrx⟩ := hi.stocked (by rw [hstage]; decide)
    rw [hstage]
    exact ⟨⟨fun _ => hdown,hi.idle,fun h => by contradiction,
      fun _ => ⟨htx,⟨hrx.head,hrx.buffers⟩⟩,fun h => by contradiction⟩,_,rfl,
      run_aside (by decide) rfl⟩
  | freeIrq =>
    obtain ⟨hstage,rfl⟩ := guarded_eq_some.mp h
    have hdown : d.iface = .down := hi.down (by rw [hstage]; decide)
    obtain ⟨htx,hrx⟩ := hi.stocked (by rw [hstage]; decide)
    rw [hstage]
    exact ⟨⟨fun _ => hdown,hi.idle,fun h => by contradiction,fun _ => ⟨htx,hrx⟩,
      fun h => by contradiction⟩,_,rfl,run_aside (by decide) rfl⟩
  | teardown =>
    obtain ⟨hstage,rfl⟩ := guarded_eq_some.mp h
    have hdown : d.iface = .down := hi.down (by rw [hstage]; decide)
    obtain ⟨⟨flights,gone,hload,hl⟩,hrx⟩ := hi.stocked (by rw [hstage]; decide)
    rw [hstage]
    exact ⟨⟨fun _ => hdown,hi.idle,fun _ => ⟨remove_spec hload hl,dropRx_buf _⟩,
      fun h => absurd rfl h,fun h => by contradiction⟩,_,rfl,teardown_run hrx.buffers⟩
  | _ => contradiction

/-- Every step keeps the invariant and the accounts. -/
theorem device_step (hi : DeviceInv d) {label : DeviceLabel} (h : d.step label = some d') :
    DeviceInv d' ∧ Accounted d d' := by
  cases label with
  | probe ans => exact probe_step hi h
  | finishProbe register => exact finishProbe_step hi h
  | tx label => exact tx_step hi h
  | rx label => exact rx_step hi h
  | «open» => exact ndo_step hi .open h
  | stop => exact ndo_step hi .stop h
  | napiDisable => exact ndo_step hi .napiDisable h
  | spurious => exact ndo_step hi .spurious h
  | scheduleNapi => exact ndo_step hi .scheduleNapi h
  | unregisterNetdev => exact remove_step hi .unregisterNetdev h
  | freeIrq => exact remove_step hi .freeIrq h
  | teardown => exact remove_step hi .teardown h

theorem device_inv (h : device.Reachable d) : DeviceInv d := by
  have hstep : ∀ s label t, device.Reachable s → DeviceInv s → True →
      device.step s label = some t → DeviceInv t :=
    fun _ _ _ _ hi _ hstep => (device_step hi hstep).1
  refine h.invariant ?_ hstep
  rintro s ⟨hstage,hdown,-,hidle,htx,hrx⟩
  refine ⟨fun _ => hdown,fun _ => hidle,fun _ => ⟨?_,fun i _ => hrx i⟩,fun h => absurd hstage h,
    fun h => ?_⟩
  · rw [htx]
    exact ⟨rfl,fun _ _ => rfl,List.Perm.nil,List.Perm.nil⟩
  · exact absurd (hstage.symm.trans h) (by decide)

theorem device_accounts (h : device.Reachable d) : accounts.run d.log ∅ = some d.stage.holding := by
  have hstep : ∀ s label t, device.Reachable s → True → device.step s label = some t →
      Accounted s t := fun _ _ _ hs _ hstep => (device_step (device_inv hs) hstep).2
  refine Inventory.accounts Device.log (fun d => d.stage.holding) ?_ hstep h
  rintro s ⟨hstage,-,hlog,-⟩
  exact ⟨hlog,by rw [hstage]; rfl⟩

/-- A my_pci_probe in which everything succeeds. -/
def probeOk : ProbeAnswers :=
  ⟨true,true,true,true,true,true,true,true,fun i => ⟨some i,some (UInt64.ofNat (4096*(i+1)))⟩,
    true,0,0,0,fun _ _ => 0⟩

end NetLab.SimpleNetdev
