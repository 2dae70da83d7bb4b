import NetLab.Accelerator.Ending

/-! The main loop over one batch of `epoll_wait`. A batch holds raw pointers into connection
objects that earlier entries of the same batch may have freed. -/
namespace NetLab.Accelerator

/-- Connection objects get numbers that are never used again, so a number names one object for
ever even where `calloc` would hand out its address again. -/
structure Heap where
  conns : ℕ → Option Session
  next : ℕ

def Heap.empty : Heap := ⟨fun _ => none,0⟩

/-- One entry of `events[]`, with the kernel's answers to the calls its handling makes. For the
listener these are the connections that `accept` returns before it would block. -/
inductive Entry
  | listener (accepts : List CreateAnswers)
  | endpoint (id : ℕ) (side : Side) (events : Events) (ans : Answers)

/-- Object `id` becomes `o`, where `none` is a freed object. -/
def Heap.set (w : Heap) (id : ℕ) (o : Option Session) : Heap :=
  { w with conns := Function.update w.conns id o }

@[simp] theorem Heap.set_conns_self (w : Heap) (id : ℕ) (o : Option Session) :
    (w.set id o).conns id = o := Function.update_self _ _ _

theorem Heap.set_conns_of_ne (w : Heap) {id id' : ℕ} (o : Option Session) (h : id' ≠ id) :
    (w.set id o).conns id' = w.conns id' := Function.update_of_ne h _ _

@[simp] theorem Heap.set_next (w : Heap) (id : ℕ) (o : Option Session) :
    (w.set id o).next = w.next := rfl

def Heap.create (w : Heap) (ans : CreateAnswers) : Heap :=
  match createConnection ans with
  | none => w
  | some s => { w.set w.next (some s) with next := w.next+1 }

/-- The body of the loop; `none` when it would touch a connection that has been freed. -/
def handleEntry (w : Heap) : Entry → Option Heap
  | .listener accepts => some (accepts.foldl Heap.create w)
  | .endpoint id d events ans =>
    match w.conns id with
    | none => none
    | some s =>
      let s' := s.handle d events ans
      some (w.set id (if s'.live then some s' else none))

def handleBatch (w : Heap) : List Entry → Option Heap
  | [] => some w
  | e::es => (handleEntry w e).bind (fun w' => handleBatch w' es)

/-- The endpoint an entry is for, if it is not the listener's. -/
def Entry.target : Entry → Option (ℕ × Side)
  | .listener _ => none
  | .endpoint id d _ _ => some (id,d)

/-- `recv` and `send` answer within their contracts. -/
def Entry.Fit (w : Heap) : Entry → Prop
  | .listener _ => True
  | .endpoint id d _ ans => ∀ s, w.conns id = some s → ans.Fit d s.conn

def Respects (w : Heap) : List Entry → Prop
  | [] => True
  | e::es => e.Fit w ∧ ∀ w', handleEntry w e = some w' → Respects w' es

/-- What `epoll_wait` may return: at most one entry for each endpoint, all of live connections. -/
structure ValidBatch (w : Heap) (es : List Entry) : Prop where
  nodup : (es.filterMap Entry.target).Nodup
  live : ∀ t ∈ es.filterMap Entry.target, (w.conns t.1).isSome = true
  fit : Respects w es

/-- The relay as a whole: it handles one valid batch after the other. -/
inductive RelayReachable : Heap → Prop
  | start : RelayReachable Heap.empty
  | batch {w w' es} (hw : RelayReachable w) (hv : ValidBatch w es)
    (h : handleBatch w es = some w') : RelayReachable w'

/-- The connection an entry is for is destroyed when the entry is handled in `w`. -/
def Entry.Ends (w : Heap) : Entry → Prop
  | .listener _ => False
  | .endpoint id d events ans => ∃ s, w.conns id = some s ∧ EventEnds d events ans s.conn

/-- Two entries for the two endpoints of one connection. -/
def SameConnection : Entry → Entry → Prop
  | .endpoint id _ _ _,.endpoint id' _ _ _ => id = id'
  | _,_ => False

/-- No entry that destroys its connection is followed by an entry for the other endpoint. -/
def EndsLast (w : Heap) (es : List Entry) : Prop :=
  es.Pairwise (fun a b => SameConnection a b → ¬ a.Ends w)

/-- Every live object is a session some run of events leads to, and no object is numbered yet
from `next` on. -/
structure HeapInv (w : Heap) : Prop where
  fresh : ∀ id, w.next ≤ id → w.conns id = none
  session : ∀ id s, w.conns id = some s → anyEvents.Reachable s ∧ s.live = true

theorem Heap.create_inv {w : Heap} (h : HeapInv w) (ans : CreateAnswers) : HeapInv (w.create ans) := by
  unfold Heap.create
  cases hc : createConnection ans with
  | none => exact h
  | some s =>
    constructor
    · intro id hid
      change w.next+1 ≤ id at hid
      change (w.set w.next (some s)).conns id = none
      rw [Heap.set_conns_of_ne _ _ (by omega)]
      exact h.fresh id (by omega)
    · intro id t ht
      change (w.set w.next (some s)).conns id = some t at ht
      by_cases hid : id = w.next
      · subst hid
        obtain rfl : s = t := by simpa using ht
        exact ⟨.init ⟨ans,hc⟩,by rw [createConnection_eq hc]; rfl⟩
      · rw [Heap.set_conns_of_ne _ _ hid] at ht
        exact h.session id t ht

theorem Heap.create_conns {w : Heap} (ans : CreateAnswers) {id : ℕ}
    (hid : id < w.next) : (w.create ans).conns id = w.conns id ∧ id < (w.create ans).next := by
  unfold Heap.create
  cases createConnection ans with
  | none => exact ⟨rfl,hid⟩
  | some s => exact ⟨Heap.set_conns_of_ne _ _ (by omega),Nat.lt_succ_of_lt hid⟩

theorem creates_inv {w : Heap} (h : HeapInv w) (accepts : List CreateAnswers) :
    HeapInv (accepts.foldl Heap.create w) := by
  induction accepts generalizing w with
  | nil => exact h
  | cons ans accepts ih => exact ih (Heap.create_inv h ans)

theorem creates_conns {w : Heap} (accepts : List CreateAnswers) {id : ℕ}
    (hid : id < w.next) : (accepts.foldl Heap.create w).conns id = w.conns id ∧
      id < (accepts.foldl Heap.create w).next := by
  induction accepts generalizing w with
  | nil => exact ⟨rfl,hid⟩
  | cons ans accepts ih =>
    obtain ⟨heq,hlt⟩ := Heap.create_conns ans hid
    obtain ⟨heq',hlt'⟩ := ih hlt
    exact ⟨heq'.trans heq,hlt'⟩

theorem HeapInv.lt_next {w : Heap} (h : HeapInv w) {id : ℕ} {s : Session}
    (hs : w.conns id = some s) : id < w.next := by
  by_contra hid
  rw [h.fresh id (by omega)] at hs
  contradiction

/-- Handling an entry keeps the heap well formed, does not revive an object, and leaves every
other object alone. -/
theorem handleEntry_inv {w w' : Heap} {e : Entry} (h : HeapInv w) (hfit : e.Fit w)
    (he : handleEntry w e = some w') : HeapInv w' := by
  cases e with
  | listener accepts =>
    obtain rfl := Option.some.inj he
    exact creates_inv h accepts
  | endpoint id d events ans =>
    cases hs : w.conns id with
    | none => simp [handleEntry,hs] at he
    | some s =>
      simp only [handleEntry,hs] at he
      obtain rfl := Option.some.inj he
      obtain ⟨hreach,hlive⟩ := h.session id s hs
      have hlt := h.lt_next hs
      constructor
      · intro id' hid'
        rw [Heap.set_next] at hid'
        rw [Heap.set_conns_of_ne _ _ (by omega)]
        exact h.fresh id' hid'
      · intro id' t ht
        by_cases hid : id' = id
        · subst hid
          rw [Heap.set_conns_self] at ht
          split_ifs at ht with hl
          obtain rfl := Option.some.inj ht
          exact ⟨.step hreach trivial (anyEvents_step hlive (hfit s hs)),hl⟩
        · rw [Heap.set_conns_of_ne _ _ hid] at ht
          exact h.session id' t ht

theorem handleEntry_conns {w w' : Heap} {e : Entry}
    (he : handleEntry w e = some w') {id : ℕ} (hid : id < w.next) (hne : ∀ d, e.target ≠ some (id,d)) :
    w'.conns id = w.conns id ∧ id < w'.next := by
  cases e with
  | listener accepts =>
    obtain rfl := Option.some.inj he
    exact creates_conns accepts hid
  | endpoint id' d events ans =>
    have hne' : id ≠ id' := by
      rintro rfl
      exact hne d rfl
    cases hs : w.conns id' with
    | none => simp [handleEntry,hs] at he
    | some s =>
      simp only [handleEntry,hs] at he
      obtain rfl := Option.some.inj he
      exact ⟨Heap.set_conns_of_ne _ _ hne',hid⟩

theorem handleEntry_dead_target {w : Heap} {e : Entry} {id : ℕ} {d : Side}
    (hdead : w.conns id = none) (ht : e.target = some (id,d)) : handleEntry w e = none := by
  cases e with
  | listener accepts => simp [Entry.target] at ht
  | endpoint id' d' events ans =>
    obtain ⟨rfl,rfl⟩ : id' = id ∧ d' = d := by simpa [Entry.target] using ht
    simp [handleEntry,hdead]

/-- A freed object stays freed. -/
theorem handleEntry_dead {w w' : Heap} {e : Entry}
    (he : handleEntry w e = some w') {id : ℕ} (hid : id < w.next) (hdead : w.conns id = none) :
    w'.conns id = none ∧ id < w'.next := by
  have hne : ∀ d, e.target ≠ some (id,d) := by
    intro d hd
    rw [handleEntry_dead_target hdead hd] at he
    contradiction
  obtain ⟨heq,hlt⟩ := handleEntry_conns he hid hne
  exact ⟨heq.trans hdead,hlt⟩

/-- A batch with an entry for a freed object touches it. -/
theorem handleBatch_dead {w : Heap} {es : List Entry} {id : ℕ} {d : Side} (hid : id < w.next)
    (hdead : w.conns id = none) (hmem : (id,d) ∈ es.filterMap Entry.target) :
    handleBatch w es = none := by
  induction es generalizing w with
  | nil => simp at hmem
  | cons e es ih =>
    cases he : handleEntry w e with
    | none => simp [handleBatch,he]
    | some w' =>
      obtain ⟨hdead',hlt'⟩ := handleEntry_dead he hid hdead
      have hrest : (id,d) ∈ es.filterMap Entry.target := by
        obtain ⟨e',he',ht⟩ := List.mem_filterMap.mp hmem
        rcases List.mem_cons.mp he' with rfl | he'
        · rw [handleEntry_dead_target hdead ht] at he
          contradiction
        · exact List.mem_filterMap.mpr ⟨e',he',ht⟩
      rw [handleBatch,he,Option.bind_some]
      exact ih hlt' hdead' hrest

theorem handle_live_iff {s : Session} (hs : anyEvents.Reachable s) {d : Side}
    (events : Events) {ans : Answers} (hfit : ans.Fit d s.conn) :
    (s.handle d events ans).live = false ↔ EventEnds d events ans s.conn := by
  obtain ⟨hcode,hfin⟩ := processEvent_exact (anyEvents_faithful hs).wf hfit _ rfl
  simp only [Session.handle]
  split_ifs with hc hf
  · simpa [EventEnds] using Or.inl (hcode.mp hc)
  · have hok : ¬ EventFails d events ans s.conn := fun h => hc (hcode.mpr h)
    simpa [EventEnds] using Or.inr ((hfin hok).mp hf)
  · have hok : ¬ EventFails d events ans s.conn := fun h => hc (hcode.mpr h)
    have hno : ¬ EventFinishes d events ans s.conn := fun h => hf ((hfin hok).mpr h)
    simp [EventEnds,hok,hno]

theorem Entry.ends_congr {w w' : Heap} {e : Entry}
    (h : ∀ id d, e.target = some (id,d) → w'.conns id = w.conns id) : e.Ends w' ↔ e.Ends w := by
  cases e with
  | listener accepts => rfl
  | endpoint id d events ans => rw [Entry.Ends,Entry.Ends,h id d rfl]

theorem sameConnection_targets {a b : Entry} (h : SameConnection a b) :
    ∃ id d d', a.target = some (id,d) ∧ b.target = some (id,d') := by
  cases a <;> cases b <;> simp_all [SameConnection,Entry.target]

/-- The condition only looks at connections with two entries in the batch. -/
theorem endsLast_congr {w w' : Heap} {es : List Entry} (hnodup : (es.filterMap Entry.target).Nodup)
    (hagree : ∀ id d d', d ≠ d' → (id,d) ∈ es.filterMap Entry.target →
      (id,d') ∈ es.filterMap Entry.target → w'.conns id = w.conns id) :
    EndsLast w' es ↔ EndsLast w es := by
  have hdistinct := List.pairwise_filterMap.mp hnodup
  have hends : ∀ a ∈ es, ∀ b ∈ es, (∀ t, a.target = some t → ∀ t', b.target = some t' → t ≠ t') →
      SameConnection a b → (a.Ends w' ↔ a.Ends w) := by
    intro a ha b hb hne hsame
    obtain ⟨id,d,d',hta,htb⟩ := sameConnection_targets hsame
    have hd : d ≠ d' := fun hdd => hne _ hta _ htb (by rw [hdd])
    apply Entry.ends_congr
    intro id₂ d₂ ht
    obtain ⟨rfl,rfl⟩ : id = id₂ ∧ d = d₂ := by simpa [hta] using ht
    exact hagree id d d' hd (List.mem_filterMap.mpr ⟨a,ha,hta⟩) (List.mem_filterMap.mpr ⟨b,hb,htb⟩)
  constructor
  · intro h
    refine List.Pairwise.imp_of_mem (fun ha hb hab hsame => ?_) (h.and hdistinct)
    rw [← hends _ ha _ hb hab.2 hsame]
    exact hab.1 hsame
  · intro h
    refine List.Pairwise.imp_of_mem (fun ha hb hab hsame => ?_) (h.and hdistinct)
    rw [hends _ ha _ hb hab.2 hsame]
    exact hab.1 hsame

/-- Two different sides that both differ from a third do not exist. -/
theorem Side.not_three (d e e' : Side) (h : e ≠ e') (he : e ≠ d) (he' : e' ≠ d) : False := by
  cases d <;> cases e <;> cases e' <;> contradiction

theorem endsLast_cons {w : Heap} {e : Entry} {es : List Entry} :
    EndsLast w (e::es) ↔ (∀ b ∈ es, SameConnection e b → ¬ e.Ends w) ∧ EndsLast w es :=
  List.pairwise_cons

theorem sameConnection_iff {id : ℕ} {d : Side} {events : Events} {ans : Answers} {b : Entry} :
    SameConnection (.endpoint id d events ans) b ↔ ∃ d', b.target = some (id,d') := by
  cases b with
  | listener accepts => simp [SameConnection,Entry.target]
  | endpoint id' d' events' ans' => simp [SameConnection,Entry.target,eq_comm]

/-- New connections leave a batch valid, and its condition as it was. -/
theorem ValidBatch.listener {w : Heap} {es : List Entry} {accepts : List CreateAnswers}
    (hv : ValidBatch w (.listener accepts::es)) (h : HeapInv w) :
    ValidBatch (accepts.foldl Heap.create w) es ∧
      (EndsLast (accepts.foldl Heap.create w) es ↔ EndsLast w es) := by
  obtain ⟨hnodup,hlive,-,hrest⟩ := hv
  have hagree : ∀ id d, (id,d) ∈ es.filterMap Entry.target →
      (accepts.foldl Heap.create w).conns id = w.conns id := by
    intro id d hmem
    obtain ⟨s,hs⟩ := Option.isSome_iff_exists.mp (hlive (id,d) hmem)
    exact (creates_conns accepts (h.lt_next hs)).1
  refine ⟨⟨hnodup,fun t ht => ?_,hrest _ rfl⟩,?_⟩
  · rw [hagree t.1 t.2 ht]
    exact hlive t ht
  · exact endsLast_congr hnodup (fun id d d' _ hd _ => hagree id d hd)

/-- Handling an entry leaves the condition on the rest as it was: the connection of that entry
has at most one more entry. -/
theorem endsLast_endpoint {w w' : Heap} {es : List Entry} {id : ℕ} {d : Side}
    (hnodup : (es.filterMap Entry.target).Nodup) (hnotin : (id,d) ∉ es.filterMap Entry.target)
    (hother : ∀ id', id' ≠ id → w'.conns id' = w.conns id') : EndsLast w' es ↔ EndsLast w es := by
  refine endsLast_congr hnodup (fun i e e' hne hmem hmem' => hother i ?_)
  rintro rfl
  refine d.not_three e e' hne ?_ ?_
  · rintro rfl
    exact hnotin hmem
  · rintro rfl
    exact hnotin hmem'

/-- By induction on the batch. -/
theorem handleBatch_isSome_iff {w : Heap} {es : List Entry} (h : HeapInv w)
    (hv : ValidBatch w es) : (handleBatch w es).isSome = true ↔ EndsLast w es := by
  induction es generalizing w with
  | nil => simp [handleBatch,EndsLast]
  | cons e es ih =>
    cases e with
    | listener accepts =>
      have he : handleEntry w (.listener accepts) = some (accepts.foldl Heap.create w) := rfl
      obtain ⟨hv',hcongr⟩ := hv.listener h
      rw [handleBatch,he,Option.bind_some,ih (creates_inv h accepts) hv',hcongr,endsLast_cons]
      simp [SameConnection]
    | endpoint id d events ans =>
      obtain ⟨hnodup,hlive,hfit,hrest⟩ := hv
      obtain ⟨hnotin,hnodup'⟩ := List.nodup_cons.mp hnodup
      obtain ⟨s,hs⟩ := Option.isSome_iff_exists.mp (hlive (id,d) List.mem_cons_self)
      obtain ⟨w',hw'⟩ : ∃ w', w' = w.set id (if (s.handle d events ans).live = true then
        some (s.handle d events ans) else none) := ⟨_,rfl⟩
      have he : handleEntry w (.endpoint id d events ans) = some w' := by
        simp [handleEntry,hs,hw']
      have hends : (Entry.endpoint id d events ans).Ends w ↔ w'.conns id = none := by
        have hiff := handle_live_iff (h.session id s hs).1 events (hfit s hs)
        rw [hw',Heap.set_conns_self]
        simp [Entry.Ends,hs,← hiff]
      have hother : ∀ id', id' ≠ id → w'.conns id' = w.conns id' := by
        intro id' hne
        rw [hw',Heap.set_conns_of_ne _ _ hne]
      rw [handleBatch,he,Option.bind_some,endsLast_cons,hends,
        ← endsLast_endpoint hnodup' hnotin hother]
      by_cases hdoomed : w'.conns id = none ∧ ∃ d', (id,d') ∈ es.filterMap Entry.target
      · -- the other endpoint's entry comes too late
        obtain ⟨hdead,d',hd'⟩ := hdoomed
        obtain ⟨b,hb,ht⟩ := List.mem_filterMap.mp hd'
        have hlt : id < w'.next := by rw [hw']; exact h.lt_next hs
        rw [handleBatch_dead hlt hdead hd']
        exact iff_of_false (by simp) (fun hc => hc.1 b hb (sameConnection_iff.mpr ⟨d',ht⟩) hdead)
      · have hv' : ValidBatch w' es := by
          refine ⟨hnodup',fun t ht => ?_,hrest _ he⟩
          by_cases hid : t.1 = id
          · rw [hid,Option.isSome_iff_ne_none]
            exact fun hdead => hdoomed ⟨hdead,t.2,by rw [← hid]; exact ht⟩
          · rw [hother _ hid]
            exact hlive t (List.mem_cons_of_mem _ ht)
        rw [ih (handleEntry_inv h hfit he) hv']
        refine (and_iff_right (fun b hb hsame hdead => hdoomed ⟨hdead,?_⟩)).symm
        obtain ⟨d',ht⟩ := sameConnection_iff.mp hsame
        exact ⟨d',List.mem_filterMap.mpr ⟨b,hb,ht⟩⟩

theorem handleBatch_inv {w w' : Heap} {es : List Entry} (h : HeapInv w) (hfit : Respects w es)
    (he : handleBatch w es = some w') : HeapInv w' := by
  induction es generalizing w with
  | nil =>
    obtain rfl := Option.some.inj he
    exact h
  | cons e es ih =>
    obtain ⟨w₁,h₁,h₂⟩ := Option.bind_eq_some_iff.mp he
    exact ih (handleEntry_inv h hfit.1 h₁) (hfit.2 w₁ h₁) h₂

theorem relay_inv {w : Heap} (h : RelayReachable w) : HeapInv w := by
  induction h with
  | start => exact ⟨fun _ _ => rfl,fun _ _ hs => by simp [Heap.empty] at hs⟩
  | batch _ hv he ih => exact handleBatch_inv ih hv.fit he

/-- In every state the relay reaches and for every batch of events, handling the batch stays
away from freed connections exactly when no entry that ends its connection is followed by an
entry for the connection's other endpoint. -/
theorem batch_safe_iff {w : Heap} (h : RelayReachable w) {es : List Entry} (hv : ValidBatch w es) :
    (∃ w', handleBatch w es = some w') ↔ EndsLast w es := by
  rw [← handleBatch_isSome_iff (relay_inv h) hv,Option.isSome_iff_exists]

/-- One accepted connection. -/
def oneConnection : Heap := Heap.empty.create ⟨true,true,true,true,true,true⟩

theorem oneConnection_reachable : RelayReachable oneConnection := by
  have hv : ValidBatch Heap.empty [.listener [⟨true,true,true,true,true,true⟩]] :=
    ⟨List.nodup_nil,by simp [Entry.target],trivial,fun _ _ => trivial⟩
  exact .batch .start hv rfl

/-- The client resets its connection while the server has sent data. -/
def resetBatch : List Entry :=
  [.endpoint 0 .client { epollin := true, epollrdhup := true, epollerr := true, epollhup := true }
    ⟨.error,.wouldBlock,true,true⟩,
   .endpoint 0 .server { epollin := true } ⟨.data [1],.wouldBlock,true,true⟩]

theorem resetBatch_valid : ValidBatch oneConnection resetBatch where
  nodup := by decide
  live := by decide
  fit := by
    refine ⟨fun s _ => ⟨trivial,trivial⟩,fun w' hw' => ⟨fun s hs => ?_,fun _ _ => trivial⟩⟩
    have hdead : (handleEntry oneConnection (.endpoint 0 .client
        { epollin := true, epollrdhup := true, epollerr := true, epollhup := true }
        ⟨.error,.wouldBlock,true,true⟩)).map (fun w => (w.conns 0).isSome) = some false := by decide
    rw [hw'] at hdead
    simp [hs] at hdead

/-- The second entry of the batch reads `endpoint->conn` of the connection that the first one
has freed. -/
theorem reset_batch_touches_freed :
    RelayReachable oneConnection ∧ ValidBatch oneConnection resetBatch ∧
      handleBatch oneConnection resetBatch = none := by
  refine ⟨oneConnection_reachable,resetBatch_valid,?_⟩
  have hnone : (handleBatch oneConnection resetBatch).isSome = false := by decide
  exact Option.not_isSome_iff_eq_none.mp (by simp [hnone])

theorem reset_batch_not_endsLast : ¬ EndsLast oneConnection resetBatch := by
  rw [← batch_safe_iff oneConnection_reachable resetBatch_valid]
  rintro ⟨w',hw'⟩
  have hnone : (handleBatch oneConnection resetBatch).isSome = false := by decide
  rw [hw'] at hnone
  contradiction

end NetLab.Accelerator
