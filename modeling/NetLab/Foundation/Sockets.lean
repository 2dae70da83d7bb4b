import NetLab.Foundation.Intake

/-! The connections of a server with `n` client slots and reused descriptor numbers. Connections
are numbered in the order of their `accept`, so a connection is followed by its number whatever
becomes of its slot and its descriptor afterwards. -/
namespace NetLab

/-- What a slot knows of its connection. -/
structure Socket where
  active : Bool
  fd : ℤ
  buffer : Bytes

def Socket.free : Socket := ⟨false,-1,[]⟩

/-- The slots, the connection that is open under each descriptor, and how many there have been. -/
structure Sockets (n : ℕ) where
  slots : Fin n → Socket
  conns : ℤ → Option ℕ
  accepted : ℕ

namespace Sockets

variable {n : ℕ} {x y : Sockets n} {i : Fin n} {c : ℕ}

def initial (n : ℕ) : Sockets n := ⟨fun _ => .free,fun _ => none,0⟩

def close (x : Sockets n) (i : Fin n) : Sockets n :=
  { x with
    slots := Function.update x.slots i .free
    conns := Function.update x.conns (x.slots i).fd none }

def setBuffer (x : Sockets n) (i : Fin n) (buffer : Bytes) : Sockets n :=
  { x with slots := Function.update x.slots i { x.slots i with buffer := buffer } }

def connect (x : Sockets n) (i : Fin n) (fd : ℤ) : Sockets n where
  slots := Function.update x.slots i ⟨true,fd,[]⟩
  conns := Function.update x.conns fd (some x.accepted)
  accepted := x.accepted+1

/-- A connection that is accepted and closed at once. -/
def refuse (x : Sockets n) : Sockets n := { x with accepted := x.accepted+1 }

/-- What happens to the connections besides the reading of data. -/
inductive Step : Sockets n → Sockets n → Prop
  | close (x : Sockets n) (i) (h : (x.slots i).active = true) : Step x (x.close i)
  | connect (x : Sockets n) (i) (fd) (hfree : (x.slots i).active = false)
    (hunused : x.conns fd = none) : Step x (x.connect i fd)
  | refuse (x : Sockets n) : Step x x.refuse

/-- What happens to the connections while data from slot `i` is handled. -/
inductive Work (i : Fin n) : Sockets n → Sockets n → Prop
  | close (x : Sockets n) (j) (h : (x.slots j).active = true) : Work i x (x.close j)
  | buffer (x : Sockets n) (buffer : Bytes) : Work i x (x.setBuffer i buffer)

/-- Slots and descriptors agree, and no two descriptors name one connection. -/
structure Consistent (x : Sockets n) : Prop where
  opened : ∀ i, (x.slots i).active = true → (x.conns (x.slots i).fd).isSome = true
  owned : ∀ fd c, x.conns fd = some c → ∃ i, (x.slots i).active = true ∧ (x.slots i).fd = fd
  unique : ∀ i j, (x.slots i).active = true → (x.slots j).active = true →
    (x.slots i).fd = (x.slots j).fd → i = j
  numbered : ∀ fd c, x.conns fd = some c → c < x.accepted
  distinct : ∀ fd fd' c, x.conns fd = some c → x.conns fd' = some c → fd = fd'

theorem initial_consistent (n : ℕ) : (initial n).Consistent where
  opened _ h := Bool.noConfusion h
  owned _ _ h := by simp [initial] at h
  unique _ _ h := Bool.noConfusion h
  numbered _ _ h := by simp [initial] at h
  distinct _ _ _ h := by simp [initial] at h

/-- Slot `i` holds connection `c`. -/
def Holds (x : Sockets n) (i : Fin n) (c : ℕ) : Prop :=
  (x.slots i).active = true ∧ x.conns (x.slots i).fd = some c

/-- Connection `c` has been closed. -/
def Gone (x : Sockets n) (c : ℕ) : Prop := c < x.accepted ∧ ∀ fd, x.conns fd ≠ some c

theorem close_conns (i : Fin n) {fd : ℤ}
    (h : (x.close i).conns fd = some c) : x.conns fd = some c ∧ fd ≠ (x.slots i).fd := by
  change Function.update x.conns (x.slots i).fd none fd = some c at h
  by_cases hfd : fd = (x.slots i).fd
  · rw [hfd,Function.update_self] at h
    contradiction
  · rw [Function.update_of_ne hfd] at h
    exact ⟨h,hfd⟩

theorem close_slots_of_ne {j : Fin n} (h : j ≠ i) : (x.close i).slots j = x.slots j :=
  Function.update_of_ne h _ _

theorem close_slots_self : (x.close i).slots i = .free := Function.update_self _ _ _

/-- A slot that is connected after a close is another one, as it was. -/
theorem close_active {j : Fin n} (h : ((x.close i).slots j).active = true) :
    j ≠ i ∧ (x.close i).slots j = x.slots j := by
  have hne : j ≠ i := by
    rintro rfl
    rw [close_slots_self] at h
    exact Bool.noConfusion h
  exact ⟨hne,close_slots_of_ne hne⟩

theorem Consistent.close (hx : x.Consistent) (hi : (x.slots i).active = true) :
    (x.close i).Consistent where
  opened j hj := by
    obtain ⟨hne,heq⟩ := close_active hj
    rw [heq] at hj ⊢
    have hfd : (x.slots j).fd ≠ (x.slots i).fd := fun h => hne (hx.unique j i hj hi h)
    change (Function.update x.conns (x.slots i).fd none (x.slots j).fd).isSome = true
    rw [Function.update_of_ne hfd]
    exact hx.opened j hj
  owned fd c h := by
    obtain ⟨hold,hfd⟩ := close_conns i h
    obtain ⟨j,hj,rfl⟩ := hx.owned fd c hold
    have hne : j ≠ i := fun h => hfd (by rw [h])
    rw [← close_slots_of_ne (x := x) hne] at hj
    exact ⟨j,hj,by rw [close_slots_of_ne hne]⟩
  unique j k hj hk hfd := by
    obtain ⟨-,hsj⟩ := close_active hj
    obtain ⟨-,hsk⟩ := close_active hk
    rw [hsj] at hj hfd
    rw [hsk] at hk hfd
    exact hx.unique j k hj hk hfd
  numbered fd c h := hx.numbered fd c (close_conns i h).1
  distinct fd fd' c h h' := hx.distinct fd fd' c (close_conns i h).1 (close_conns i h').1

theorem setBuffer_slots (x : Sockets n) (i j : Fin n) (buffer : Bytes) :
    ((x.setBuffer i buffer).slots j).active = (x.slots j).active ∧
      ((x.setBuffer i buffer).slots j).fd = (x.slots j).fd := by
  by_cases hj : j = i
  · subst hj
    change (Function.update x.slots j _ j).active = _ ∧ (Function.update x.slots j _ j).fd = _
    rw [Function.update_self]
    exact ⟨rfl,rfl⟩
  · change (Function.update x.slots i _ j).active = _ ∧ (Function.update x.slots i _ j).fd = _
    rw [Function.update_of_ne hj]
    exact ⟨rfl,rfl⟩

theorem setBuffer_self (x : Sockets n) (i : Fin n) (buffer : Bytes) :
    (x.setBuffer i buffer).slots i = { x.slots i with buffer := buffer } :=
  Function.update_self _ _ _

theorem Consistent.setBuffer (hx : x.Consistent) (i : Fin n) (buffer : Bytes) :
    (x.setBuffer i buffer).Consistent := by
  have hs := setBuffer_slots x i
  exact
    { opened := fun j hj => by
        rw [(hs j buffer).1] at hj
        rw [(hs j buffer).2]
        exact hx.opened j hj
      owned := fun fd c h => by
        obtain ⟨j,hj,hfd⟩ := hx.owned fd c h
        exact ⟨j,(hs j buffer).1.trans hj,(hs j buffer).2.trans hfd⟩
      unique := fun j k hj hk hfd => by
        rw [(hs j buffer).1] at hj
        rw [(hs k buffer).1] at hk
        rw [(hs j buffer).2,(hs k buffer).2] at hfd
        exact hx.unique j k hj hk hfd
      numbered := hx.numbered
      distinct := hx.distinct }

theorem connect_conns {fd g : ℤ} (h : (x.connect i fd).conns g = some c) :
    (g = fd ∧ c = x.accepted) ∨ (g ≠ fd ∧ x.conns g = some c) := by
  change Function.update x.conns fd (some x.accepted) g = some c at h
  by_cases hg : g = fd
  · rw [hg,Function.update_self] at h
    exact Or.inl ⟨hg,(Option.some.inj h).symm⟩
  · rw [Function.update_of_ne hg] at h
    exact Or.inr ⟨hg,h⟩

theorem connect_self (fd : ℤ) : (x.connect i fd).slots i = ⟨true,fd,[]⟩ := Function.update_self _ _ _

theorem connect_of_ne {j : Fin n} (h : j ≠ i) (fd : ℤ) : (x.connect i fd).slots j = x.slots j :=
  Function.update_of_ne h _ _

/-- A connection that is accepted into a free slot stays there, or is closed at once. -/
theorem accepted_steps {fd : ℤ} (hfree : (x.slots i).active = false)
    (hunused : x.conns fd = none) (hy : y = x.connect i fd ∨ y = (x.connect i fd).close i) :
    Relation.ReflTransGen Step x y := by
  have hstep := Step.connect x i fd hfree hunused
  obtain rfl | rfl := hy
  · exact .single hstep
  · refine .head hstep (.single (.close _ i ?_))
    rw [connect_self]

theorem Consistent.connect (hx : x.Consistent) {fd : ℤ} (hfree : (x.slots i).active = false)
    (hunused : x.conns fd = none) : (x.connect i fd).Consistent := by
  have hother : ∀ j, (x.slots j).active = true → (x.slots j).fd ≠ fd := by
    rintro j hj rfl
    have := hx.opened j hj
    rw [hunused] at this
    exact Bool.noConfusion this
  exact
    { opened := fun j hj => by
        change (Function.update x.conns fd (some x.accepted) _).isSome = true
        by_cases hji : j = i
        · rw [hji,connect_self,Function.update_self]
          rfl
        · rw [connect_of_ne hji] at hj ⊢
          rw [Function.update_of_ne (hother j hj)]
          exact hx.opened j hj
      owned := fun g c h => by
        rcases connect_conns h with ⟨rfl,-⟩ | ⟨-,hold⟩
        · exact ⟨i,by rw [connect_self],by rw [connect_self]⟩
        · obtain ⟨j,hj,hfd⟩ := hx.owned g c hold
          have hji : j ≠ i := by
            rintro rfl
            rw [hfree] at hj
            exact Bool.noConfusion hj
          exact ⟨j,by rw [connect_of_ne hji]; exact hj,by rw [connect_of_ne hji]; exact hfd⟩
      unique := fun j k hj hk hfd => by
        by_cases hji : j = i <;> by_cases hki : k = i
        · rw [hji,hki]
        · rw [hji,connect_self,connect_of_ne hki] at hfd
          rw [connect_of_ne hki] at hk
          exact absurd hfd.symm (hother k hk)
        · rw [hki,connect_self,connect_of_ne hji] at hfd
          rw [connect_of_ne hji] at hj
          exact absurd hfd (hother j hj)
        · rw [connect_of_ne hji,connect_of_ne hki] at hfd
          rw [connect_of_ne hji] at hj
          rw [connect_of_ne hki] at hk
          exact hx.unique j k hj hk hfd
      numbered := fun g c h => by
        change c < x.accepted+1
        rcases connect_conns h with ⟨-,rfl⟩ | ⟨-,hold⟩
        · exact Nat.lt_succ_self _
        · exact Nat.lt_succ_of_lt (hx.numbered g c hold)
      distinct := fun g g' c h h' => by
        rcases connect_conns h with ⟨rfl,rfl⟩ | ⟨-,hold⟩ <;>
          rcases connect_conns h' with ⟨rfl,hc⟩ | ⟨-,hold'⟩
        · rfl
        · exact absurd (hx.numbered g' _ hold') (lt_irrefl _)
        · rw [hc] at hold
          exact absurd (hx.numbered g _ hold) (lt_irrefl _)
        · exact hx.distinct g g' c hold hold' }

theorem Step.consistent (hx : x.Consistent) (h : Step x y) : y.Consistent := by
  cases h with
  | close i hi => exact hx.close hi
  | connect i fd hfree hunused => exact hx.connect hfree hunused
  | refuse =>
    exact ⟨hx.opened,hx.owned,hx.unique,fun fd c h => Nat.lt_succ_of_lt (hx.numbered fd c h),
      hx.distinct⟩

theorem Work.consistent (hx : x.Consistent) (h : Work i x y) : y.Consistent := by
  cases h with
  | close j hj => exact hx.close hj
  | buffer buffer => exact hx.setBuffer i buffer

/-- The slot that holds connection `c`. -/
def slotOf (x : Sockets n) (c : ℕ) : Option (Fin n) :=
  (List.finRange n).find? (fun i => (x.slots i).active && x.conns (x.slots i).fd == some c)

/-- How connection `c` stands. -/
def status (x : Sockets n) (c : ℕ) : Status :=
  if x.accepted ≤ c then .pending
  else
    match x.slotOf c with
    | some i => .opened (x.slots i).buffer
    | none => .closed

theorem slotOf_some (h : x.slotOf c = some i) : x.Holds i c := by
  have hp := List.find?_some h
  simpa [Holds] using hp

theorem Holds.slotOf (hx : x.Consistent) (h : x.Holds i c) : x.slotOf c = some i := by
  cases hj : x.slotOf c with
  | none =>
    have hp := List.find?_eq_none.mp hj i (List.mem_finRange i)
    simp [h.1,h.2] at hp
  | some j =>
    obtain ⟨hactive,hconn⟩ := slotOf_some hj
    rw [hx.unique j i hactive h.1 (hx.distinct _ _ c hconn h.2)]

theorem Holds.status (hx : x.Consistent) (h : x.Holds i c) :
    x.status c = .opened (x.slots i).buffer := by
  have hlt := hx.numbered _ c h.2
  simp [Sockets.status,h.slotOf hx,hlt]

theorem Gone.status (h : x.Gone c) : x.status c = .closed := by
  have hnone : x.slotOf c = none := by
    cases hj : x.slotOf c with
    | none => rfl
    | some j => exact absurd (slotOf_some hj).2 (h.2 _)
  have hlt := h.1
  simp [Sockets.status,hnone,hlt]

theorem status_pending (h : x.accepted ≤ c) : x.status c = .pending := if_pos h

/-- A connection that has been accepted is held by a slot, or gone. -/
theorem Consistent.holds_or_gone (hx : x.Consistent) (h : c < x.accepted) :
    (∃ i, x.Holds i c) ∨ x.Gone c := by
  by_cases hfd : ∃ fd, x.conns fd = some c
  · obtain ⟨fd,hfd⟩ := hfd
    obtain ⟨i,hi,rfl⟩ := hx.owned fd c hfd
    exact Or.inl ⟨i,hi,hfd⟩
  · exact Or.inr ⟨h,fun fd hc => hfd ⟨fd,hc⟩⟩

theorem Gone.close (h : x.Gone c) (i : Fin n) : (x.close i).Gone c :=
  ⟨h.1,fun fd hc => h.2 fd (close_conns i hc).1⟩

/-- Closing a slot closes the connection it holds, and no other. -/
theorem Holds.close (h : x.Holds i c) (hx : x.Consistent) {j : Fin n}
    (hj : (x.slots j).active = true) :
    ((x.close j).Holds i c ∧ (x.close j).slots i = x.slots i) ∨ (x.close j).Gone c := by
  by_cases hij : i = j
  · subst hij
    refine Or.inr ⟨hx.numbered _ c h.2,fun fd hc => ?_⟩
    obtain ⟨hold,hne⟩ := close_conns i hc
    exact hne (hx.distinct _ _ c hold h.2)
  · left
    have heq := close_slots_of_ne (x := x) hij
    have hfd : (x.slots i).fd ≠ (x.slots j).fd := fun hf => hij (hx.unique i j h.1 hj hf)
    refine ⟨⟨by rw [heq]; exact h.1,?_⟩,heq⟩
    rw [heq]
    exact (Function.update_of_ne hfd _ _).trans h.2

theorem Gone.step (h : x.Gone c) (hs : Step x y) : y.Gone c := by
  cases hs with
  | close i hi => exact h.close i
  | connect i fd hfree hunused =>
    refine ⟨Nat.lt_succ_of_lt h.1,fun g hc => ?_⟩
    rcases connect_conns hc with ⟨-,rfl⟩ | ⟨-,hold⟩
    · exact lt_irrefl _ h.1
    · exact h.2 g hold
  | refuse => exact ⟨Nat.lt_succ_of_lt h.1,h.2⟩

theorem Holds.step (h : x.Holds i c) (hx : x.Consistent) (hs : Step x y) :
    (y.Holds i c ∧ y.slots i = x.slots i) ∨ y.Gone c := by
  cases hs with
  | close j hj => exact h.close hx hj
  | connect j fd hfree hunused =>
    left
    have hij : i ≠ j := by
      rintro rfl
      exact Bool.noConfusion (h.1.symm.trans hfree)
    have hfd : (x.slots i).fd ≠ fd := by
      rintro rfl
      exact absurd (h.2.symm.trans hunused) (by simp)
    have heq := connect_of_ne (x := x) hij fd
    refine ⟨⟨by rw [heq]; exact h.1,?_⟩,heq⟩
    rw [heq]
    exact (Function.update_of_ne hfd _ _).trans h.2
  | refuse => exact Or.inl ⟨h,rfl⟩

/-- Without data a connection stays as it is, is opened, or is closed. -/
theorem Step.status (hx : x.Consistent) (hs : Step x y) (c : ℕ) :
    (x.status c).Passes (y.status c) := by
  have hy := hs.consistent hx
  by_cases hlt : c < x.accepted
  · rcases hx.holds_or_gone hlt with ⟨i,hi⟩ | hgone
    · rcases hi.step hx hs with ⟨hi',heq⟩ | hgone
      · rw [hi.status hx,hi'.status hy,heq]
        exact Or.inl rfl
      · rw [hgone.status]
        exact Or.inr (Or.inl rfl)
    · rw [hgone.status,(hgone.step hs).status]
      exact Or.inl rfl
  · rw [status_pending (not_lt.mp hlt)]
    by_cases hlt' : c < y.accepted
    · cases hs with
      | close i hi => exact absurd hlt' hlt
      | connect i fd hfree hunused =>
        have hc : c = x.accepted := by
          change c < x.accepted+1 at hlt'
          omega
        have hi : (x.connect i fd).Holds i c := by
          refine ⟨by rw [connect_self],?_⟩
          rw [connect_self,hc]
          exact Function.update_self _ _ _
        rw [hi.status hy,connect_self]
        exact Or.inr (Or.inr ⟨rfl,rfl⟩)
      | refuse =>
        rcases hy.holds_or_gone hlt' with ⟨i,hi⟩ | hgone
        · exact absurd (hx.numbered _ c hi.2) hlt
        · rw [hgone.status]
          exact Or.inr (Or.inl rfl)
    · rw [status_pending (not_lt.mp hlt')]
      exact Or.inl rfl

theorem Steps.status (hx : x.Consistent) (hs : Relation.ReflTransGen Step x y) (c : ℕ) :
    y.Consistent ∧ (x.status c).Passes (y.status c) := by
  induction hs with
  | refl => exact ⟨hx,Or.inl rfl⟩
  | tail _ hstep ih => exact ⟨hstep.consistent ih.1,ih.2.trans (hstep.status ih.1 c)⟩

/-- While data from slot `i` is handled, a connection stays where it is or is closed, and the
buffers of the other slots stay as they are. -/
theorem Work.kept {j : Fin n} (hx : x.Consistent) (hw : Work i x y) (h : x.Holds j c) :
    (y.Holds j c ∧ (j ≠ i → y.slots j = x.slots j)) ∨ y.Gone c := by
  cases hw with
  | close k hk => exact (h.close hx hk).imp_left (fun hkept => ⟨hkept.1,fun _ => hkept.2⟩)
  | buffer buffer =>
    obtain ⟨hactive,hfd⟩ := setBuffer_slots x i j buffer
    refine Or.inl ⟨⟨hactive.trans h.1,?_⟩,fun hne => Function.update_of_ne hne _ _⟩
    rw [hfd]
    exact h.2

theorem Work.gone (hw : Work i x y) (h : x.Gone c) : y.Gone c := by
  cases hw with
  | close k hk => exact h.close k
  | buffer buffer => exact h

theorem Work.accepted_eq (hw : Work i x y) : y.accepted = x.accepted := by
  cases hw <;> rfl

theorem Works.kept {j : Fin n} (hx : x.Consistent) (hw : Relation.ReflTransGen (Work i) x y)
    (h : x.Holds j c) : y.Consistent ∧
      ((y.Holds j c ∧ (j ≠ i → y.slots j = x.slots j)) ∨ y.Gone c) := by
  induction hw with
  | refl => exact ⟨hx,Or.inl ⟨h,fun _ => rfl⟩⟩
  | tail _ hstep ih =>
    obtain ⟨hcons,hkept⟩ := ih
    refine ⟨hstep.consistent hcons,?_⟩
    rcases hkept with ⟨hold,heq⟩ | hgone
    · rcases hstep.kept hcons hold with ⟨hnew,heq'⟩ | hgone
      · exact Or.inl ⟨hnew,fun hne => (heq' hne).trans (heq hne)⟩
      · exact Or.inr hgone
    · exact Or.inr (hstep.gone hgone)

theorem Works.gone (hw : Relation.ReflTransGen (Work i) x y) (h : x.Gone c) : y.Gone c := by
  induction hw with
  | refl => exact h
  | tail _ hstep ih => exact hstep.gone ih

theorem Works.accepted_eq (hw : Relation.ReflTransGen (Work i) x y) : y.accepted = x.accepted := by
  induction hw with
  | refl => rfl
  | tail _ hstep ih => exact hstep.accepted_eq.trans ih

theorem Works.consistent (hx : x.Consistent) (hw : Relation.ReflTransGen (Work i) x y) :
    y.Consistent := by
  induction hw with
  | refl => exact hx
  | tail _ hstep ih => exact hstep.consistent ih

/-- For the other connections the handling of data is silent. -/
theorem Works.status_of_ne (hx : x.Consistent) (hw : Relation.ReflTransGen (Work i) x y)
    (hne : ¬ x.Holds i c) : (x.status c).Passes (y.status c) := by
  by_cases hlt : c < x.accepted
  · rcases hx.holds_or_gone hlt with ⟨j,hj⟩ | hgone
    · obtain ⟨hy,⟨hkept,heq⟩ | hgone⟩ := Works.kept hx hw hj
      · have hji : j ≠ i := by
          rintro rfl
          exact hne hj
        rw [hj.status hx,hkept.status hy,heq hji]
        exact Or.inl rfl
      · rw [hgone.status]
        exact Or.inr (Or.inl rfl)
    · rw [hgone.status,(Works.gone hw hgone).status]
      exact Or.inl rfl
  · rw [status_pending (not_lt.mp hlt),status_pending (by rw [Works.accepted_eq hw]; exact not_lt.mp hlt)]
    exact Or.inl rfl

end Sockets

/-- The reader of slot `i`, in a state of which `view` shows the connections: a line closes one
connection or none, and is only refused further lines when it has closed its own. -/
structure Reads {σ ε : Type*} {n : ℕ} (R : LineReader σ ε) (view : σ → Sockets n)
    (i : Fin n) : Prop where
  isOpen : ∀ s, R.isOpen s = ((view s).slots i).active
  buffer : ∀ s, R.buffer s = ((view s).slots i).buffer
  setBuffer : ∀ s buffer, view (R.setBuffer s buffer) = (view s).setBuffer i buffer
  handle : ∀ env s line, R.isOpen s = true → view (R.handle env s line).1 = view s ∨
    ∃ j, ((view s).slots j).active = true ∧ view (R.handle env s line).1 = (view s).close j
  closed : ∀ env s line, (R.handle env s line).2 = false → R.isOpen (R.handle env s line).1 = false

namespace Reads

variable {σ ε : Type*} {n : ℕ} {R : LineReader σ ε} {view : σ → Sockets n} {i : Fin n}

theorem lawful (h : Reads R view i) : R.Lawful where
  buffer_setBuffer s buffer := by rw [h.buffer,h.setBuffer,Sockets.setBuffer_self]
  isOpen_setBuffer s buffer := by
    rw [h.isOpen,h.setBuffer,h.isOpen,(Sockets.setBuffer_slots _ i i buffer).1]
  buffer_handle env s line hopen hopen' := by
    rw [h.isOpen] at hopen'
    rw [h.buffer,h.buffer]
    rcases h.handle env s line hopen with heq | ⟨j,hj,heq⟩
    · rw [heq]
    · rw [heq] at hopen' ⊢
      rw [(Sockets.close_active hopen').2]
  closed := h.closed

theorem loop_works (h : Reads R view i) (envs : ℕ → ε) (rounds : ℕ) (s : σ) :
    Relation.ReflTransGen (Sockets.Work i) (view s) (view (R.loop envs rounds s)) := by
  induction rounds generalizing s with
  | zero => exact .refl
  | succ rounds ih =>
    rw [LineReader.loop]
    cases hopen : R.isOpen s with
    | false => exact .refl
    | true =>
      cases firstLine (R.buffer s) with
      | none => exact .refl
      | some p =>
        obtain ⟨line,rest⟩ := p
        simp only [Bool.not_true,Bool.false_eq_true,if_false]
        have hbuffer : Relation.ReflTransGen (Sockets.Work i) (view s) (view (R.setBuffer s rest)) := by
          rw [h.setBuffer]
          exact .single (.buffer _ rest)
        have hline : Relation.ReflTransGen (Sockets.Work i) (view s)
            (view (R.handle (envs rounds) (R.setBuffer s rest) line).1) := by
          rcases h.handle (envs rounds) (R.setBuffer s rest) line
            (by rw [h.lawful.isOpen_setBuffer,hopen]) with heq | ⟨j,hj,heq⟩
          · rwa [heq]
          · rw [heq]
            exact hbuffer.tail (.close _ j hj)
        split
        · exact hline
        · exact hline.trans (ih _)

/-- Handling a chunk that fits the buffer. -/
theorem chunk (h : Reads R view i) (envs : ℕ → ε) {s : σ} (hopen : ((view s).slots i).active = true)
    (data : Bytes) {before after : σ} (hbefore : before = R.setBuffer s data)
    (hafter : after = R.loop envs data.length before) :
    Relation.ReflTransGen (Sockets.Work i) (view s) (view after) ∧
    (R.calls envs data.length before).map (LineReader.Call.taken R) <+: linesTaken data ∧
    ((R.calls envs data.length before).map (LineReader.Call.taken R)).head? =
      (linesTaken data).head? ∧
    (((view after).slots i).active = true →
      (R.calls envs data.length before).map (LineReader.Call.taken R) = linesTaken data ∧
        ((view after).slots i).buffer = unfinished data) := by
  have hdata : R.buffer before = data := by rw [hbefore,h.lawful.buffer_setBuffer]
  have hopen' : R.isOpen before = true := by
    rw [hbefore,h.lawful.isOpen_setBuffer,h.isOpen,hopen]
  obtain ⟨hpre,hfirst,hend⟩ := h.lawful.loop_spec envs hopen' (le_of_eq (congrArg _ hdata))
  rw [hdata,← hafter,h.isOpen,h.buffer] at hend
  rw [hdata] at hpre hfirst
  refine ⟨?_,hpre,by rw [List.head?_map,hfirst],hend⟩
  have hworks := h.loop_works envs data.length before
  rw [← hafter] at hworks
  refine Relation.ReflTransGen.head ?_ hworks
  rw [hbefore,h.setBuffer]
  exact .buffer _ data

end Reads

/-- A server that reads its connections through buffers of `cap` bytes: `recv` says from which
slot a label receives which bytes, and `taken` which lines are taken from the buffer. -/
structure SocketServer (σ ι : Type*) (n : ℕ) where
  machine : Machine σ ι
  sockets : σ → Sockets n
  recv : σ → ι → Option (Fin n × Bytes)
  taken : σ → ι → List (Bytes × Bytes)
  cap : ℕ
  maxChunk : ℕ

namespace SocketServer

variable {σ ι : Type*} {n : ℕ} (S : SocketServer σ ι n)

/-- Connection `c` of the server. -/
def tap (c : ℕ) : Tap σ ι where
  status s := (S.sockets s).status c
  chunk s a :=
    match S.recv s a with
    | none => none
    | some (i,bytes) => if (S.sockets s).slotOf c = some i then some bytes else none
  tooLong s a :=
    match S.recv s a with
    | none => false
    | some (i,bytes) => decide (S.cap ≤ ((S.sockets s).slots i).buffer.length+bytes.length)
  taken := S.taken

/-- What the steps of the server do to its connections. -/
structure Lawful : Prop where
  init : ∀ s, S.machine.init s → S.sockets s = .initial n
  quiet : ∀ s a t, S.machine.step s a = some t → S.recv s a = none →
    Relation.ReflTransGen Sockets.Step (S.sockets s) (S.sockets t)
  size : ∀ s a t i bytes, S.machine.step s a = some t → S.recv s a = some (i,bytes) →
    bytes ≠ [] ∧ bytes.length ≤ S.maxChunk ∧ ((S.sockets s).slots i).active = true
  refused : ∀ s a t i bytes, S.machine.step s a = some t → S.recv s a = some (i,bytes) →
    S.cap ≤ ((S.sockets s).slots i).buffer.length+bytes.length →
    S.taken s a = [] ∧ S.sockets t = (S.sockets s).setBuffer i []
  accepted : ∀ s a t i bytes, S.machine.step s a = some t → S.recv s a = some (i,bytes) →
    ¬ S.cap ≤ ((S.sockets s).slots i).buffer.length+bytes.length →
    Relation.ReflTransGen (Sockets.Work i) (S.sockets s) (S.sockets t) ∧
    S.taken s a <+: linesTaken (((S.sockets s).slots i).buffer ++ bytes) ∧
    (S.taken s a).head? = (linesTaken (((S.sockets s).slots i).buffer ++ bytes)).head? ∧
    (((S.sockets t).slots i).active = true →
      S.taken s a = linesTaken (((S.sockets s).slots i).buffer ++ bytes) ∧
        ((S.sockets t).slots i).buffer = unfinished (((S.sockets s).slots i).buffer ++ bytes))

variable {S}

/-- Handling data, refused or not, is work on the slot. -/
theorem Lawful.works (h : S.Lawful) {s t : σ} {a : ι} {i : Fin n} {bytes : Bytes}
    (ht : S.machine.step s a = some t) (hrecv : S.recv s a = some (i,bytes)) :
    Relation.ReflTransGen (Sockets.Work i) (S.sockets s) (S.sockets t) := by
  by_cases hcap : S.cap ≤ ((S.sockets s).slots i).buffer.length+bytes.length
  · rw [(h.refused s a t i bytes ht hrecv hcap).2]
    exact .single (.buffer _ _)
  · exact (h.accepted s a t i bytes ht hrecv hcap).1

theorem Lawful.consistent (h : S.Lawful) {s : σ} (hs : S.machine.Reachable s) :
    (S.sockets s).Consistent := by
  refine hs.invariant (I := fun s => (S.sockets s).Consistent) ?_ ?_
  · intro s hinit
    rw [h.init s hinit]
    exact Sockets.initial_consistent n
  · intro s a t _ ih _ ht
    cases hrecv : S.recv s a with
    | none => exact (Sockets.Steps.status ih (h.quiet s a t ht hrecv) 0).1
    | some p => exact Sockets.Works.consistent ih (h.works ht hrecv)

/-- Each connection of such a server is read as a tap through the server's buffer. -/
theorem Lawful.tap (h : S.Lawful) (c : ℕ) :
    (S.tap c).Lawful S.machine S.cap S.maxChunk where
  init s hs := by
    change (S.sockets s).status c = .pending
    rw [h.init s hs]
    exact Sockets.status_pending (Nat.zero_le c)
  silent s a t hs ht hchunk := by
    have hcons := h.consistent hs
    cases hrecv : S.recv s a with
    | none => exact (Sockets.Steps.status hcons (h.quiet s a t ht hrecv) c).2
    | some p =>
      refine Sockets.Works.status_of_ne hcons (h.works ht hrecv) (fun hi => ?_)
      simp [SocketServer.tap,hrecv,hi.slotOf hcons] at hchunk
  size s a t bytes _ ht hchunk := by
    simp only [SocketServer.tap] at hchunk
    cases hrecv : S.recv s a with
    | none => simp [hrecv] at hchunk
    | some p =>
      simp only [hrecv] at hchunk
      split_ifs at hchunk
      obtain rfl := Option.some.inj hchunk
      obtain ⟨hne,hlen,-⟩ := h.size s a t p.1 p.2 ht hrecv
      exact ⟨hne,hlen⟩
  data s a t bytes hs ht hchunk := by
    have hcons := h.consistent hs
    simp only [SocketServer.tap] at hchunk ⊢
    cases hrecv : S.recv s a with
    | none => simp [hrecv] at hchunk
    | some p =>
      obtain ⟨i,data⟩ := p
      simp only [hrecv] at hchunk ⊢
      split_ifs at hchunk with hslot
      obtain rfl := Option.some.inj hchunk
      have hi := Sockets.slotOf_some hslot
      refine ⟨_,hi.status hcons,rfl,fun hcap => ?_,fun hcap => ?_⟩
      · obtain ⟨htaken,hnext⟩ := h.refused s a t i data ht hrecv hcap
        have hnow : (S.sockets t).Holds i c := by
          rw [hnext,Sockets.Holds,Sockets.setBuffer_self]
          exact hi
        refine ⟨htaken,?_⟩
        rw [hnow.status (h.consistent (.step hs trivial ht)),hnext,Sockets.setBuffer_self]
      · obtain ⟨hworks,hinitial,hfirst,hend⟩ := h.accepted s a t i data ht hrecv hcap
        refine ⟨hinitial,hfirst,?_⟩
        obtain ⟨hcons',⟨hkept,-⟩ | hgone⟩ := Sockets.Works.kept hcons hworks hi
        · obtain ⟨hall,hbuffer⟩ := hend hkept.1
          exact Or.inr ⟨hall,by rw [hkept.status hcons',hbuffer]⟩
        · exact Or.inl hgone.status

end SocketServer

end NetLab
