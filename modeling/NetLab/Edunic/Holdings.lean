import NetLab.Edunic.Lifecycle

/-! What a card holds besides the resources of its device's stage: the armed timer, the work item,
and the buffers in the slots of its rings with their mappings. -/
namespace NetLab.Edunic
open NetLab.Ring

/-- Resources that come and go with the steps of the card. -/
def Resource.extra : Resource → Bool
  | .linkTimer | .work | .skb _ _ | .dma _ _ => true
  | _ => false

/-- The net_device, the registers and the rings. -/
def core : Finset Resource :=
  {.device,.regions,.mapping,.netdev,.txDesc,.txBuf,.rxDesc,.rxBuf}

/-- The slots with a buffer. -/
def inUse (skb : ℕ → Option SkBuff) : Finset ℕ :=
  (Finset.range ringSize).filter (fun k => skb k ≠ none)

def Adapter.occupied (a : Adapter) : Finset ℕ := inUse (fun k => (a.txRing.buf k).skb)

def RxAdapter.occupied (a : RxAdapter) : Finset ℕ := inUse (fun k => (a.rxRing.buf k).skb)

def Card.occupied (c : Card) : Half → Finset ℕ
  | .tx => c.tx.occupied
  | .rx => c.rx.occupied

section InUse

variable {f g : ℕ → Option SkBuff} {i : ℕ}

theorem mem_inUse : i ∈ inUse f ↔ i < ringSize ∧ f i ≠ none := by
  simp [inUse]

theorem inUse_congr (h : ∀ k, g k = none ↔ f k = none) : inUse g = inUse f := by
  ext k
  rw [mem_inUse,mem_inUse,ne_eq,h k]

theorem inUse_insert (hi : i < ringSize) (hnew : g i ≠ none)
    (hrest : ∀ k, k ≠ i → (g k = none ↔ f k = none)) : inUse g = insert i (inUse f) := by
  ext k
  rw [Finset.mem_insert,mem_inUse,mem_inUse]
  by_cases hk : k = i
  · subst hk
    simp [hi,hnew]
  · simp [hk,hrest k hk]

theorem inUse_erase (hgone : g i = none) (hrest : ∀ k, k ≠ i → (g k = none ↔ f k = none)) :
    inUse g = (inUse f).erase i := by
  ext k
  rw [Finset.mem_erase,mem_inUse,mem_inUse]
  by_cases hk : k = i
  · subst hk
    simp [hgone]
  · simp [hk,hrest k hk]

theorem inUse_empty (h : ∀ k, k < ringSize → f k = none) : inUse f = ∅ := by
  ext k
  rw [mem_inUse]
  constructor
  · exact fun hk => absurd (h k hk.1) hk.2
  · exact fun hk => absurd hk (Finset.notMem_empty k)

end InUse

/-- Buffers and mappings of some slots. -/
def slots (half : Half) (s : Finset ℕ) : Finset Resource :=
  s.image (Resource.skb half) ∪ s.image (Resource.dma half)

/-- A resource that is held under a condition. -/
def heldIf (b : Bool) (r : Resource) : Finset Resource := if b then {r} else ∅

def Card.extras (c : Card) : Finset Resource :=
  heldIf c.timerArmed .linkTimer ∪ heldIf c.tx.working .work ∪
    (slots .tx (c.occupied .tx) ∪ slots .rx (c.occupied .rx))

section Extras

variable {c e : Card} {half half' : Half} {k : ℕ} {r q : Resource} {s : Finset ℕ}

@[simp] theorem mem_heldIf {b : Bool} : r ∈ heldIf b q ↔ b = true ∧ r = q := by
  cases b <;> simp [heldIf]

@[simp] theorem mem_slots_skb : .skb half' k ∈ slots half s ↔ half' = half ∧ k ∈ s := by
  simp only [slots,Finset.mem_union,Finset.mem_image,Resource.skb.injEq,reduceCtorEq,and_false,
    exists_false,or_false]
  aesop

@[simp] theorem mem_slots_dma : .dma half' k ∈ slots half s ↔ half' = half ∧ k ∈ s := by
  simp only [slots,Finset.mem_union,Finset.mem_image,Resource.dma.injEq,reduceCtorEq,and_false,
    exists_false,false_or]
  aesop

theorem extra_of_mem_slots (h : r ∈ slots half s) : r.extra = true := by
  cases r <;> first | rfl | simp [slots] at h

theorem extra_of_mem (h : r ∈ c.extras) : r.extra = true := by
  simp only [Card.extras,Finset.mem_union,mem_heldIf] at h
  rcases h with (⟨-,rfl⟩ | ⟨-,rfl⟩) | h | h
  · rfl
  · rfl
  · exact extra_of_mem_slots h
  · exact extra_of_mem_slots h

@[simp] theorem mem_extras_timer : .linkTimer ∈ c.extras ↔ c.timerArmed = true := by
  simp [Card.extras,slots]

@[simp] theorem mem_extras_work : .work ∈ c.extras ↔ c.tx.working = true := by
  simp [Card.extras,slots]

@[simp] theorem mem_extras_skb : .skb half k ∈ c.extras ↔ k ∈ c.occupied half := by
  cases half <;> simp [Card.extras]

@[simp] theorem mem_extras_dma : .dma half k ∈ c.extras ↔ k ∈ c.occupied half := by
  cases half <;> simp [Card.extras]

/-- Extras are known by the timer, the work item and the slots in use. -/
theorem extras_eq {X : Finset Resource} (hX : ∀ r ∈ X, r.extra = true)
    (htimer : .linkTimer ∈ X ↔ c.timerArmed = true) (hwork : .work ∈ X ↔ c.tx.working = true)
    (hskb : ∀ half k, .skb half k ∈ X ↔ k ∈ c.occupied half)
    (hdma : ∀ half k, .dma half k ∈ X ↔ k ∈ c.occupied half) : X = c.extras := by
  ext r
  cases r with
  | linkTimer => rw [htimer,mem_extras_timer]
  | work => rw [hwork,mem_extras_work]
  | skb half k => rw [hskb,mem_extras_skb]
  | dma half k => rw [hdma,mem_extras_dma]
  | _ => exact iff_of_false (mt (hX _) (by decide)) (mt extra_of_mem (by decide))

theorem occupied_eq (htx : e.tx.occupied = c.tx.occupied) (hrx : e.rx.occupied = c.rx.occupied) :
    e.occupied = c.occupied := by
  funext half
  cases half with
  | tx => exact htx
  | rx => exact hrx

theorem extras_same (htimer : e.timerArmed = c.timerArmed) (hwork : e.tx.working = c.tx.working)
    (hslots : e.occupied = c.occupied) : c.extras = e.extras := by
  rw [Card.extras,Card.extras,htimer,hwork,hslots]

theorem extras_none (htimer : c.timerArmed = false) (hwork : c.tx.working = false)
    (htx : ∀ k, k < ringSize → (c.tx.txRing.buf k).skb = none)
    (hrx : ∀ k, k < ringSize → (c.rx.rxRing.buf k).skb = none) : c.extras = ∅ := by
  have htxSlots : c.occupied .tx = ∅ := inUse_empty htx
  have hrxSlots : c.occupied .rx = ∅ := inUse_empty hrx
  rw [Card.extras,htimer,hwork,htxSlots,hrxSlots]
  rfl

theorem extra_of_mem_insert (hq : q.extra = true) {X : Finset Resource}
    (hX : ∀ r ∈ X, r.extra = true) : ∀ r ∈ insert q X, r.extra = true := by
  intro r hr
  obtain rfl | hr := Finset.mem_insert.mp hr
  · exact hq
  · exact hX r hr

theorem extra_of_mem_erase {X : Finset Resource} (hX : ∀ r ∈ X, r.extra = true) :
    ∀ r ∈ X.erase q, r.extra = true := fun r hr => hX r (Finset.mem_of_mem_erase hr)

theorem extras_work (htimer : e.timerArmed = c.timerArmed) (hwork : e.tx.working = true)
    (hslots : e.occupied = c.occupied) : insert .work c.extras = e.extras := by
  apply extras_eq (extra_of_mem_insert rfl fun _ => extra_of_mem)
  · simp [htimer]
  · simp [hwork]
  · simp [hslots]
  · simp [hslots]

theorem extras_workDone (htimer : e.timerArmed = c.timerArmed) (hwork : e.tx.working = false)
    (hslots : e.occupied = c.occupied) : c.extras.erase .work = e.extras := by
  apply extras_eq (extra_of_mem_erase fun _ => extra_of_mem)
  · simp [htimer]
  · simp [hwork]
  · simp [hslots]
  · simp [hslots]

theorem extras_armed (htimer : e.timerArmed = true) (hwork : e.tx.working = c.tx.working)
    (hslots : e.occupied = c.occupied) : insert .linkTimer c.extras = e.extras := by
  apply extras_eq (extra_of_mem_insert rfl fun _ => extra_of_mem)
  · simp [htimer]
  · simp [hwork]
  · simp [hslots]
  · simp [hslots]

theorem extras_disarmed (htimer : e.timerArmed = false) (hwork : e.tx.working = c.tx.working)
    (hslots : e.occupied = c.occupied) : c.extras.erase .linkTimer = e.extras := by
  apply extras_eq (extra_of_mem_erase fun _ => extra_of_mem)
  · simp [htimer]
  · simp [hwork]
  · simp [hslots]
  · simp [hslots]

theorem extras_fill (htimer : e.timerArmed = c.timerArmed) (hwork : e.tx.working = c.tx.working)
    (hslots : e.occupied = Function.update c.occupied half (insert k (c.occupied half))) :
    insert (.dma half k) (insert (.skb half k) c.extras) = e.extras := by
  have hin : ∀ half' k', k' ∈ e.occupied half' ↔ half' = half ∧ k' = k ∨ k' ∈ c.occupied half' := by
    intro half' k'
    rw [hslots]
    by_cases hhalf : half' = half
    · subst hhalf
      simp
    · simp [hhalf]
  apply extras_eq (extra_of_mem_insert rfl (extra_of_mem_insert rfl fun _ => extra_of_mem))
  · simp [htimer]
  · simp [hwork]
  · simp [hin]
  · simp [hin]

theorem extras_empty (htimer : e.timerArmed = c.timerArmed) (hwork : e.tx.working = c.tx.working)
    (hslots : e.occupied = Function.update c.occupied half ((c.occupied half).erase k)) :
    (c.extras.erase (.dma half k)).erase (.skb half k) = e.extras := by
  have hin : ∀ half' k', k' ∈ e.occupied half' ↔
      (half' = half → k' ≠ k) ∧ k' ∈ c.occupied half' := by
    intro half' k'
    rw [hslots]
    by_cases hhalf : half' = half
    · subst hhalf
      simp
    · simp [hhalf]
  apply extras_eq (extra_of_mem_erase (extra_of_mem_erase fun _ => extra_of_mem))
  · simp [htimer]
  · simp [hwork]
  · simp [hin]
  · simp [hin]

theorem occupied_tx {s : Finset ℕ} (htx : e.tx.occupied = s) (hrx : e.rx.occupied = c.rx.occupied) :
    e.occupied = Function.update c.occupied .tx s := by
  funext half
  cases half with
  | tx => exact htx
  | rx => exact hrx

theorem occupied_rx {s : Finset ℕ} (htx : e.tx.occupied = c.tx.occupied) (hrx : e.rx.occupied = s) :
    e.occupied = Function.update c.occupied .rx s := by
  funext half
  cases half with
  | tx => exact htx
  | rx => exact hrx

end Extras

/-! ### Deeds -/

/-- But for requests to NAPI, the deeds lead from what is held to what is held later. -/
def Performs (held : Finset Resource) (log : Deeds) (later : Finset Resource) : Prop :=
  (inventory Resource.needs).run (withoutUses .napi log) held = some later

instance (held : Finset Resource) (log : Deeds) (later : Finset Resource) :
    Decidable (Performs held log later) := inferInstanceAs (Decidable (_ = _))

/-- Nothing extra. -/
def Plain (base : Finset Resource) : Prop := ∀ r ∈ base, r.extra = false

instance (base : Finset Resource) : Decidable (Plain base) :=
  inferInstanceAs (Decidable (∀ _ ∈ _, _))

/-- What the extras stand on is there, and is not one of them. -/
structure Firm (base : Finset Resource) : Prop where
  core : core ⊆ base
  plain : Plain base

/-- What the resources of `X` need, but for other extras, is in `ground`. -/
def StandsOn (X ground : Finset Resource) : Prop :=
  ∀ q ∈ X, ∀ r ∈ q.needs, r.extra = true ∨ r ∈ ground

/-- What the slots of a ring stand on. -/
def Half.ground : Half → Finset Resource
  | .tx => {.device,.txDesc,.txBuf}
  | .rx => {.device,.rxDesc,.rxBuf}

/-- The deeds touch extras only, but for uses. -/
def Leads (base X : Finset Resource) (log : Deeds) (Y : Finset Resource) : Prop :=
  Performs (base ∪ X) log (base ∪ Y)

section Deeds

variable {base X Y Z held mid later : Finset Resource} {l m : Deeds} {half : Half} {k : ℕ}
variable {r q : Resource}

theorem Performs.append (hl : Performs held l mid) (hm : Performs mid m later) :
    Performs held (l ++ m) later := by
  unfold Performs
  rw [withoutUses_append,Machine.run_append,hl,Option.bind_some]
  exact hm

theorem Leads.nil : Leads base X [] X := rfl

theorem Leads.append (hl : Leads base X l Y) (hm : Leads base Y m Z) : Leads base X (l ++ m) Z :=
  Performs.append hl hm

/-- Deeds that touch nothing extra and leave what the extras there stand on. -/
theorem Performs.framed {ground : Finset Resource} (h : Performs held l later)
    (hX : ∀ r ∈ X, r.extra = true) (hground : StandsOn X ground)
    (hplain : ∀ deed ∈ l, deed.resource.extra = false) (hkept : ∀ r ∈ ground, .release r ∉ l) :
    Performs (held ∪ X) l (later ∪ X) := by
  have hsub : ∀ deed ∈ withoutUses .napi l, deed ∈ l := fun _ h => List.mem_of_mem_filter h
  have hapart : ∀ deed ∈ withoutUses .napi l, deed.resource ∉ X := by
    intro deed hdeed hmem
    have hextra := hX _ hmem
    rw [hplain deed (hsub deed hdeed)] at hextra
    contradiction
  refine Inventory.run_frame h ?_ ?_
  · intro r hr
    exact ⟨fun hmem => hapart _ hmem hr,fun hmem => hapart _ hmem hr⟩
  · intro q hq r hr hmem
    obtain hextra | hin := hground q hq r hr
    · have hno : r.extra = false := hplain _ (hsub _ hmem)
      rw [hno] at hextra
      contradiction
    · exact hkept r hin (hsub _ hmem)

theorem extras_stand {c : Card} : StandsOn c.extras (core ∪ {.workqueue}) := by
  intro q hq r hr
  have hextra := extra_of_mem hq
  cases q with
  | linkTimer => exact .inr (Finset.mem_of_subset (by decide) hr)
  | work => exact .inr (Finset.mem_of_subset (by decide) hr)
  | skb half k =>
    have hin : r ∈ core ∪ {.workqueue} := by
      cases half <;> exact Finset.mem_of_subset (by simp [Resource.needs,core]) hr
    exact .inr hin
  | dma half k =>
    cases half <;> simp only [Resource.needs,Finset.mem_insert,Finset.mem_singleton] at hr <;>
      rcases hr with rfl | rfl | rfl <;> simp [core,Resource.extra]
  | _ => contradiction

/-- Deeds beside the extras of a card. -/
theorem Performs.beside (c : Card) (h : Performs held l later)
    (hplain : ∀ deed ∈ l, deed.resource.extra = false)
    (hkept : ∀ r ∈ core ∪ {.workqueue}, .release r ∉ l) :
    Performs (held ∪ c.extras) l (later ∪ c.extras) :=
  h.framed (fun _ => extra_of_mem) extras_stand hplain hkept

theorem slots_stand {s : Finset ℕ} : StandsOn (slots half s) half.ground := by
  intro q hq r hr
  obtain hq | hq := Finset.mem_union.mp hq
  · obtain ⟨k,-,rfl⟩ := Finset.mem_image.mp hq
    cases half <;> simp only [Resource.needs,Finset.mem_singleton] at hr <;> subst hr <;>
      simp [Half.ground]
  · obtain ⟨k,-,rfl⟩ := Finset.mem_image.mp hq
    cases half <;> simp only [Resource.needs,Finset.mem_insert,Finset.mem_singleton] at hr <;>
      rcases hr with rfl | rfl | rfl <;> simp [Half.ground,Resource.extra]

theorem StandsOn.union {ground ground' : Finset Resource} (hX : StandsOn X ground)
    (hY : StandsOn Y ground') : StandsOn (X ∪ Y) (ground ∪ ground') := by
  intro q hq r hr
  obtain hq | hq := Finset.mem_union.mp hq
  · exact (hX q hq r hr).imp_right fun h => Finset.mem_union_left _ h
  · exact (hY q hq r hr).imp_right fun h => Finset.mem_union_right _ h

/-- Whatever is used, but for NAPI, is held. -/
theorem Leads.uses {rs : List Resource} (h : ∀ r ∈ rs, r = .napi ∨ r ∈ base ∪ X) :
    Leads base X (uses rs) X := by
  have honly : OnlyUses (fun r => r ∈ base ∪ X) (withoutUses .napi (Edunic.uses rs)) := by
    intro deed hdeed
    obtain ⟨hmem,hne⟩ := List.mem_filter.mp hdeed
    obtain ⟨r,hr,rfl⟩ := List.mem_map.mp hmem
    refine ⟨r,(h r hr).resolve_left ?_,rfl⟩
    rintro rfl
    simp at hne
  exact honly.run fun _ hr => hr

/-- Only a mapping needs an extra resource, its buffer. -/
theorem needs_extra (hr : r.extra = true) (h : r ∈ q.needs) :
    ∃ half k, r = .skb half k ∧ q = .dma half k := by
  cases q
  case dma half k =>
    refine ⟨half,k,?_,rfl⟩
    cases half <;> cases r <;> simp_all [Resource.needs,Resource.extra]
  case skb half k => cases half <;> cases r <;> simp_all [Resource.needs,Resource.extra]
  all_goals cases r <;> simp_all [Resource.needs,Resource.extra]

theorem Plain.not_mem (hb : Plain base) (hr : r.extra = true) : r ∉ base := fun h => by
  rw [hb r h] at hr
  contradiction

/-- Something extra is got. -/
theorem Leads.gain (hb : Plain base) (hr : r.extra = true) (hfree : r ∉ X)
    (hneeds : r.needs ⊆ base ∪ X) : Leads base X [.acquire r] (insert r X) := by
  have hnew : r ∉ base ∪ X := by
    rw [Finset.mem_union,not_or]
    exact ⟨hb.not_mem hr,hfree⟩
  unfold Leads Performs
  rw [withoutUses_of_unused (by simp),Inventory.run_acquire hnew hneeds,Finset.union_insert]
  rfl

/-- Something extra is given back that nothing else stands on. -/
theorem Leads.lose (hb : Plain base) (hr : r.extra = true) (hheld : r ∈ X)
    (hfree : ∀ half k, r = .skb half k → .dma half k ∉ X) :
    Leads base X [.release r] (X.erase r) := by
  have hnone : ∀ q ∈ base ∪ X, r ∉ q.needs := by
    intro q hq hneeds
    obtain ⟨half,k,hskb,rfl⟩ := needs_extra hr hneeds
    exact hfree half k hskb ((Finset.mem_union.mp hq).resolve_left (hb.not_mem rfl))
  have hdeed : Deed.perform Resource.needs (base ∪ X) (.release r) = some (base ∪ X.erase r) := by
    rw [Deed.perform,if_pos ⟨Finset.mem_union_right _ hheld,hnone⟩,Finset.erase_union_distrib,
      Finset.erase_eq_of_notMem (hb.not_mem hr)]
  unfold Leads Performs
  rw [withoutUses_of_unused (by simp),Inventory.run_deed hdeed]
  rfl

theorem Firm.needs_skb (hb : Firm base) : (Resource.skb half k).needs ⊆ base ∪ X := by
  refine Finset.Subset.trans ?_ (hb.core.trans Finset.subset_union_left)
  cases half <;> simp [Resource.needs,Edunic.core]

theorem Firm.needs_dma (hb : Firm base) (hskb : .skb half k ∈ X) :
    (Resource.dma half k).needs ⊆ base ∪ X := by
  have hcore : ∀ r ∈ Edunic.core, r ∈ base ∪ X := fun r hr => Finset.mem_union_left _ (hb.core hr)
  intro r hr
  cases half <;> simp only [Resource.needs,Finset.mem_insert,Finset.mem_singleton] at hr <;>
    rcases hr with rfl | rfl | rfl
  all_goals first | exact hcore _ (by decide) | exact Finset.mem_union_right _ hskb

/-- Using NAPI, the core and what is held besides. -/
theorem Firm.uses (hb : Firm base) {rs : List Resource}
    (h : ∀ r ∈ rs, r = .napi ∨ r ∈ Edunic.core ∨ r ∈ base ∪ X) : Leads base X (uses rs) X := by
  refine .uses fun r hr => (h r hr).imp_right fun hheld => ?_
  obtain hcore | hrest := hheld
  · exact Finset.mem_union_left _ (hb.core hcore)
  · exact hrest

theorem Leads.fill (hb : Firm base) (hskb : .skb half k ∉ X) (hdma : .dma half k ∉ X) :
    Leads base X (fillSlot half k) (insert (.dma half k) (insert (.skb half k) X)) := by
  have hfirst : Leads base X [.acquire (.skb half k)] (insert (.skb half k) X) :=
    .gain hb.plain rfl hskb hb.needs_skb
  have hsecond : Leads base (insert (.skb half k) X) [.acquire (.dma half k)]
      (insert (.dma half k) (insert (.skb half k) X)) :=
    .gain hb.plain rfl (by simpa using hdma) (hb.needs_dma (Finset.mem_insert_self _ _))
  exact hfirst.append hsecond

theorem Leads.pass (hb : Firm base) (hskb : .skb half k ∉ X) (hdma : .dma half k ∉ X) :
    Leads base X (passSlot half k) X := by
  have hfirst : Leads base X [.acquire (.skb half k)] (insert (.skb half k) X) :=
    .gain hb.plain rfl hskb hb.needs_skb
  have hsecond : Leads base (insert (.skb half k) X) [.release (.skb half k)]
      ((insert (.skb half k) X).erase (.skb half k)) := by
    refine .lose hb.plain rfl (Finset.mem_insert_self _ _) ?_
    rintro half' k' heq
    obtain ⟨rfl,rfl⟩ := Resource.skb.inj heq
    simpa using hdma
  rw [Finset.erase_insert hskb] at hsecond
  exact hfirst.append hsecond

theorem Leads.empty (hb : Plain base) (hskb : .skb half k ∈ X) (hdma : .dma half k ∈ X) :
    Leads base X (emptySlot half k) ((X.erase (.dma half k)).erase (.skb half k)) := by
  have hfirst : Leads base X [.release (.dma half k)] (X.erase (.dma half k)) :=
    .lose hb rfl hdma (by simp)
  have hsecond : Leads base (X.erase (.dma half k)) [.release (.skb half k)]
      ((X.erase (.dma half k)).erase (.skb half k)) := by
    refine .lose hb rfl (by simpa using hskb) ?_
    rintro half' k' heq
    obtain ⟨rfl,rfl⟩ := Resource.skb.inj heq
    exact Finset.notMem_erase _ _
  exact hfirst.append hsecond

/-- Freeing the slots of a ring one by one gives back whatever is in them; induction on their
number. -/
theorem Leads.sweep {f : ℕ → Option SkBuff} {free : ℕ → Deeds} (hb : Plain base) (n : ℕ)
    (hfree : ∀ k, free k = if f k = none then [] else emptySlot half k)
    (hX : ∀ k, k < n → f k ≠ none → .skb half k ∈ X ∧ .dma half k ∈ X) :
    Leads base X ((List.range n).flatMap free)
      (X \ slots half ((Finset.range n).filter (fun k => f k ≠ none))) := by
  induction n with
  | zero =>
    have hnone : X \ slots half ((Finset.range 0).filter (fun k => f k ≠ none)) = X := by
      simp [slots]
    rw [hnone]
    exact .nil
  | succ n ih =>
    have hrest := ih fun k hk => hX k (Nat.lt_succ_of_lt hk)
    rw [List.range_succ,List.flatMap_append,List.flatMap_singleton,hfree n]
    by_cases hn : f n = none
    · rw [if_pos hn,List.append_nil,Finset.range_add_one,Finset.filter_insert,if_neg (by simpa using hn)]
      exact hrest
    · obtain ⟨hskb,hdma⟩ := hX n (Nat.lt_succ_self n) hn
      have hlast : Leads base (X \ slots half ((Finset.range n).filter (fun k => f k ≠ none)))
          (emptySlot half n) _ := .empty hb (by simp [hskb]) (by simp [hdma])
      rw [if_neg hn,Finset.range_add_one,Finset.filter_insert,if_pos hn]
      have hall : X \ slots half (insert n ((Finset.range n).filter (fun k => f k ≠ none))) =
          ((X \ slots half ((Finset.range n).filter (fun k => f k ≠ none))).erase
            (.dma half n)).erase (.skb half n) := by
        ext r
        simp only [slots,Finset.image_insert,Finset.mem_sdiff,Finset.mem_union,Finset.mem_insert,
          Finset.mem_erase]
        tauto
      rw [hall]
      exact hrest.append hlast

end Deeds

end NetLab.Edunic
