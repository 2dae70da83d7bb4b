import NetLab.Foundation.Machine
import NetLab.Chat.Effect

/-! Runs of the main loop: the rules by which an invariant passes from one line to the loop over
a received chunk and from there to every event, and what becomes of the connections. -/
namespace NetLab.Chat

section Connections

/-- What the main loop and the kernel know of a slot: the connection and its unread bytes. -/
def SameSocket (c c' : Client) : Prop :=
  c'.active = c.active ∧ c'.fd = c.fd ∧ c'.inputBuffer = c.inputBuffer

/-- From `s` to `t` the connection of one slot is closed, or none. -/
structure Closing (s t : Server) (closed : Option Slot) : Prop where
  serverFd : t.serverFd = s.serverFd
  accepted : t.accepted = s.accepted
  fds : t.fds = closed.elim s.fds (fun j => Function.update s.fds (s.clients j).fd none)
  free : ∀ j, closed = some j → (s.clients j).active = true ∧ t.clients j = Client.free
  kept : ∀ j, closed ≠ some j → SameSocket (s.clients j) (t.clients j)

variable {s s' t : Server} {i : Slot} {closed : Option Slot}

theorem Closing.refl (s : Server) : Closing s s none where
  serverFd := rfl
  accepted := rfl
  fds := rfl
  free := by simp
  kept _ _ := ⟨rfl,rfl,rfl⟩

/-- The table, the files and the texts sent have nothing to do with the connections. -/
theorem Closing.of_same (h : Closing s' t closed) (hclients : s'.clients = s.clients)
    (hfds : s'.fds = s.fds) (hserver : s'.serverFd = s.serverFd)
    (haccepted : s'.accepted = s.accepted) : Closing s t closed where
  serverFd := h.serverFd.trans hserver
  accepted := h.accepted.trans haccepted
  fds := by rw [h.fds,hfds,hclients]
  free j hj := by rw [← hclients]; exact h.free j hj
  kept j hj := by rw [← hclients]; exact h.kept j hj

theorem setClient_closing {client : Client} (h : SameSocket (s.clients i) client) :
    Closing s (s.setClient i client) none where
  serverFd := rfl
  accepted := rfl
  fds := rfl
  free := by simp
  kept j _ := by
    by_cases hj : j = i
    · subst hj
      rwa [Server.setClient_clients_self]
    · rw [Server.setClient_clients_of_ne _ _ hj]
      exact ⟨rfl,rfl,rfl⟩

theorem disconnectClient_eq (h : (s.clients i).active = true) :
    s.disconnectClient i = (s.closeFd (s.clients i).fd).setClient i Client.free := by
  simp [Server.disconnectClient,h]

theorem disconnectClient_closing (h : (s.clients i).active = true) :
    Closing s (s.disconnectClient i) (some i) := by
  rw [disconnectClient_eq h]
  refine ⟨rfl,rfl,rfl,fun j hj => ?_,fun j hj => ?_⟩
  · obtain rfl := Option.some.inj hj
    exact ⟨h,Server.setClient_clients_self _ _ _⟩
  · have hne : j ≠ i := fun hji => hj (by rw [hji])
    rw [Server.setClient_clients_of_ne _ _ hne]
    exact ⟨rfl,rfl,rfl⟩

theorem disconnectClient_inactive (s : Server) (i : Slot) :
    ((s.disconnectClient i).clients i).active = false := by
  by_cases h : (s.clients i).active = true
  · rw [disconnectClient_eq h,Server.setClient_clients_self]
    rfl
  · simp [Server.disconnectClient,h]

theorem findClientByUserId_some {userId : ℤ} (h : s.findClientByUserId userId = some i) :
    (s.clients i).active = true ∧ (s.clients i).loggedIn = true ∧ (s.clients i).userId = userId := by
  have hp := List.find?_some h
  simp only [Bool.and_eq_true,beq_iff_eq] at hp
  exact ⟨hp.1.1,hp.1.2,hp.2⟩

theorem findClientByUserId_none {userId : ℤ} (h : s.findClientByUserId userId = none)
    (hactive : (s.clients i).active = true) (hlogged : (s.clients i).loggedIn = true) :
    (s.clients i).userId ≠ userId := by
  have hp := List.find?_eq_none.mp h i (List.mem_finRange i)
  simpa [hactive,hlogged] using hp

theorem findFreeClientSlot_some (h : s.findFreeClientSlot = some i) :
    (s.clients i).active = false := by
  have hp := List.find?_some h
  simpa using hp

theorem findClientByFd_some {fd : ℤ} (h : s.findClientByFd fd = some i) :
    (s.clients i).active = true ∧ (s.clients i).fd = fd := by
  have hp := List.find?_some h
  simpa using hp

theorem closeSession_closing (userId : ℤ) :
    Closing s (s.closeSession (s.findClientByUserId userId)) (s.findClientByUserId userId) := by
  cases h : s.findClientByUserId userId with
  | none => exact Closing.refl s
  | some j => exact disconnectClient_closing (findClientByUserId_some h).1

/-- A line closes at most one connection and leaves all the others as they are. -/
theorem LineEffect.closing (h : LineEffect s i t) (hactive : (s.clients i).active = true) :
    ∃ closed, Closing s t closed := by
  cases h with
  | answer => exact ⟨none,.refl s⟩
  | leave => exact ⟨_,disconnectClient_closing hactive⟩
  | login => exact ⟨none,setClient_closing ⟨rfl,rfl,rfl⟩⟩
  | register _ name =>
    refine ⟨none,Closing.of_same (?_ : Closing (s.registered name true) _ none) rfl rfl rfl rfl⟩
    exact setClient_closing ⟨rfl,rfl,rfl⟩
  | unsaved _ name =>
    have hc := disconnectClient_closing (s := s.registered name false) (i := i) hactive
    exact ⟨_,hc.of_same rfl rfl rfl rfl⟩
  | refresh => exact ⟨none,setClient_closing ⟨rfl,rfl,rfl⟩⟩
  | enterAdmin => exact ⟨none,setClient_closing ⟨rfl,rfl,rfl⟩⟩
  | enterChat => exact ⟨none,setClient_closing ⟨rfl,rfl,rfl⟩⟩
  | leaveChat => exact ⟨none,setClient_closing ⟨rfl,rfl,rfl⟩⟩
  | message => exact ⟨none,(Closing.refl _).of_same rfl rfl rfl rfl⟩
  | leaveAdmin => exact ⟨none,setClient_closing ⟨rfl,rfl,rfl⟩⟩
  | remove _ k u _ _ _ ok =>
    have hc := closeSession_closing (s := s.withActive k 0 ok) u.id
    exact ⟨_,hc.of_same rfl rfl rfl rfl⟩
  | restore => exact ⟨none,(Closing.refl _).of_same rfl rfl rfl rfl⟩

theorem Closing.tells {u : Server} (h : Closing s t closed) (htells : t.Tells u) : Closing s u closed := by
  obtain ⟨sent,rfl⟩ := htells
  exact ⟨h.serverFd,h.accepted,h.fds,h.free,h.kept⟩

/-- A slot that a line has left alone keeps its connection; any other is free. -/
theorem Closing.free_or_kept (h : Closing s t closed) (j : Slot) :
    t.clients j = Client.free ∨ SameSocket (s.clients j) (t.clients j) := by
  by_cases hj : closed = some j
  · exact Or.inl (h.free j hj).2
  · exact Or.inr (h.kept j hj)

/-- A handler that returns 0 has closed its own client. -/
def ClosesOwn (i : Slot) (r : Server × Bool) : Prop := r.2 = false → (r.1.clients i).active = false

theorem closesOwn_disconnect (s : Server) (i : Slot) : ClosesOwn i (s.disconnectClient i,false) :=
  fun _ => disconnectClient_inactive s i

theorem closesOwn_stay (s : Server) (i : Slot) : ClosesOwn i (s,true) :=
  fun h => Bool.noConfusion h

theorem processLine_closesOwn (s : Server) (env : LineEnv) (i : Slot) (line : Bytes) :
    ClosesOwn i (s.processLine env i line) := by
  simp only [Server.processLine]
  cases (s.clients i).mode with
  | login =>
    simp only [Server.processLogin]
    repeat' split
    all_goals first | exact closesOwn_disconnect _ i | exact closesOwn_stay _ i
  | menu =>
    simp only [Server.processMenu]
    repeat' split
    all_goals first | exact closesOwn_disconnect _ i | exact closesOwn_stay _ i
  | chat =>
    simp only [Server.processChat]
    repeat' split
    all_goals exact closesOwn_stay _ i
  | admin =>
    simp only [Server.processAdmin]
    repeat' split
    all_goals exact closesOwn_stay _ i

end Connections

section Rules

variable {P : Server → Prop} {s : Server}

/-- What an invariant has to survive while lines of the client in slot `i` are handled. -/
structure LineInvariant (P : Server → Prop) (i : Slot) : Prop where
  tells : ∀ s t, s.Tells t → P s → P t
  buffer : ∀ s buffer, P s → P (s.setClient i { s.clients i with inputBuffer := buffer })
  line : ∀ s t, (s.clients i).active = true → LineEffect s i t → P s → P t

/-- What it has to survive when any event of that client is handled. -/
structure ClientInvariant (P : Server → Prop) (i : Slot) : Prop extends LineInvariant P i where
  close : ∀ s, P s → P (s.disconnectClient i)
  recv : ∀ s fd, P s → P { s with journal := s.journal ++ [.recv fd (s.fds fd)] }

/-- What it has to survive in all events. A connection is taken into a free slot or refused. -/
structure EventInvariant (P : Server → Prop) : Prop where
  client : ∀ i, ClientInvariant P i
  connect : ∀ s i fd, (s.clients i).active = false → fd ≠ s.serverFd → s.fds fd = none → P s →
    P ((s.openFd fd).setClient i (Client.connected fd))
  refuse : ∀ s fd, fd ≠ s.serverFd → s.fds fd = none → P s → P ((s.openFd fd).closeFd fd)

variable {i : Slot}

theorem LineInvariant.processLine (h : LineInvariant P i) (env : LineEnv) (line : Bytes)
    (hactive : (s.clients i).active = true) (hs : P s) :
    P (s.processLine env i (cstr line)).1 := by
  obtain ⟨t,ht,htells⟩ := processLine_effect s env i (zero_not_mem_cstr line)
  exact h.tells _ _ htells (h.line _ _ hactive ht hs)

theorem LineInvariant.lineLoop (h : LineInvariant P i) (envs : ℕ → LineEnv) (rounds : ℕ)
    (hs : P s) : P (Server.lineLoop envs i rounds s) := by
  induction rounds generalizing s with
  | zero => exact hs
  | succ rounds ih =>
    rw [Server.lineLoop]
    split
    · exact hs
    · next hactive =>
      simp only [Bool.not_eq_true,Bool.not_eq_false'] at hactive
      split
      · exact hs
      · next line rest _ =>
        have hline := h.processLine (envs rounds) line
          (by rw [Server.setClient_clients_self]; exact hactive) (h.buffer s rest hs)
        dsimp only
        split
        · exact hline
        · exact ih hline

theorem LineInvariant.handleData (h : LineInvariant P i) (bytes : Bytes) (envs : ℕ → LineEnv)
    (hs : P s) : P (s.handleData i bytes envs) := by
  simp only [Server.handleData]
  split
  · have hcleared := h.buffer s [] hs
    exact h.tells _ _ (((Server.Tells.refl s).text _ _).setClient i _) hcleared
  · exact h.lineLoop envs _ (h.buffer s _ hs)

/-- An event that is not for the listening socket is one of the client found by its number. -/
theorem ClientInvariant.handleEntry {e : Entry} (he : e.fd ≠ s.serverFd)
    (h : ∀ i, s.findClientByFd e.fd = some i → ClientInvariant P i) (hs : P s) :
    P (s.handleEntry e) := by
  unfold Server.handleEntry
  rw [if_neg he]
  cases hi : s.findClientByFd e.fd with
  | none => exact hs
  | some i =>
    have hrecv := (h i hi).recv s e.fd hs
    cases e.recv with
    | data bytes envs => exact (h i hi).handleData bytes envs hrecv
    | fin => exact (h i hi).close _ hrecv
    | interrupted => exact hrecv
    | error => exact (h i hi).close _ hrecv

theorem EventInvariant.handleAccept (h : EventInvariant P) {answer : AcceptAnswer}
    (hserver : answer.fd ≠ s.serverFd) (hunused : s.fds answer.fd = none) (hs : P s) :
    P (s.handleAccept answer) := by
  simp only [Server.handleAccept]
  cases hi : (s.openFd answer.fd).findFreeClientSlot with
  | none =>
    have hrefused := h.refuse s answer.fd hserver hunused hs
    exact (h.client 0).tells _ _ (((Server.Tells.refl _).text _ _).closeFd _) hrefused
  | some i =>
    have hconnected := h.connect s i answer.fd (findFreeClientSlot_some hi) hserver hunused hs
    dsimp only
    split
    · exact (h.client i).close _ hconnected
    · exact (h.client i).tells _ _ ((Server.Tells.refl _).text _ _) hconnected

theorem EventInvariant.handleEntry (h : EventInvariant P) {e : Entry} (hfits : e.Fits s)
    (hs : P s) : P (s.handleEntry e) := by
  by_cases he : e.fd = s.serverFd
  · unfold Server.handleEntry
    rw [if_pos he]
    cases ha : e.accept with
    | none => exact hs
    | some answer =>
      obtain ⟨-,hserver,hunused⟩ := hfits.1 answer ha
      exact h.handleAccept hserver hunused hs
  · exact ClientInvariant.handleEntry he (fun i _ => h.client i) hs

end Rules

/-- The server at the start of its main loop. -/
def Server.boot (users : List User) (disk : Disk) (serverFd : ℤ) (journal : List Journal) : Server :=
  ⟨users,fun _ => Client.free,disk,serverFd,fun _ => none,0,[],journal⟩

/-- One server process, from a user table that satisfies `loaded`, event by event. -/
def serving (loaded : List User → Prop) : Machine Server Entry where
  init s := ∃ users disk serverFd, loaded users ∧ s = Server.boot users disk serverFd []
  step s e := if e.Fits s then some (s.handleEntry e) else none

theorem serving_step {loaded : List User → Prop} {s t : Server} {e : Entry} :
    (serving loaded).step s e = some t ↔ e.Fits s ∧ t = s.handleEntry e := guarded_eq_some

theorem EventInvariant.reachable {P : Server → Prop} (h : EventInvariant P)
    {loaded : List User → Prop}
    (hboot : ∀ users disk serverFd, loaded users → P (Server.boot users disk serverFd []))
    {s : Server} (hs : (serving loaded).Reachable s) : P s := by
  refine hs.invariant ?_ ?_
  · rintro s ⟨users,disk,serverFd,hl,rfl⟩
    exact hboot users disk serverFd hl
  · intro s e t _ ih _ ht
    obtain ⟨hfits,rfl⟩ := serving_step.mp ht
    exact h.handleEntry hfits ih

/-- Every file opens and every save succeeds. -/
def steadyEnv : LineEnv := ⟨⟨true,true⟩,true,true,0,fun _ => ascii "00:00"⟩

/-- The listening socket has a connection, which gets descriptor `fd`. -/
def Entry.connection (fd : ℤ) : Entry := { fd := 3, accept := some ⟨fd,true⟩ }

/-- A chunk of complete lines from the client under `fd`. -/
def Entry.lines (fd : ℤ) (text : String) (env : LineEnv) : Entry :=
  { fd := fd, recv := .data (ascii text) (fun _ => env) }

/-- A client connects under `fd` and sends these lines. -/
def Entry.session (fd : ℤ) (text : String) (env : LineEnv) : List Entry :=
  [.connection fd,.lines fd text env]

/-- The table of the first start, and the server with it. -/
def firstTable : List User := [⟨1,ahmet,1,1⟩]

def firstServer : Server := Server.boot firstTable ⟨some (usersText firstTable),none⟩ 3 []

section Input

/-- Between two events the buffer of a connected client is not full and holds no complete line. -/
def InputOk (c : Client) : Prop :=
  c.active = true → c.inputBuffer.length < inputBufferSize ∧ newline ∉ c.inputBuffer

theorem inputOk_free : InputOk Client.free := fun h => Bool.noConfusion h

/-- Handling a line leaves the buffers of the other slots as they are, or frees them. -/
theorem processLine_buffers {s : Server} {i : Slot} (hactive : (s.clients i).active = true)
    (env : LineEnv) (line : Bytes) (j : Slot) :
    (s.processLine env i (cstr line)).1.clients j = Client.free ∨
      SameSocket (s.clients j) ((s.processLine env i (cstr line)).1.clients j) := by
  obtain ⟨t,ht,htells⟩ := processLine_effect s env i (zero_not_mem_cstr line)
  obtain ⟨closed,hclosed⟩ := ht.closing hactive
  exact (hclosed.tells htells).free_or_kept j

theorem InputOk.of_same {c c' : Client} (h : InputOk c) (hsame : SameSocket c c') : InputOk c' := by
  intro hactive
  rw [hsame.2.2]
  exact h (hsame.1 ▸ hactive)

/-- The buffers of all slots, and those of the slots other than `i`. -/
def InputsOk (s : Server) : Prop := ∀ j, InputOk (s.clients j)

def OthersOk (i : Slot) (s : Server) : Prop := ∀ j, j ≠ i → InputOk (s.clients j)

section Slots

variable {s : Server} {i : Slot} {c : Client}

theorem OthersOk.setClient (h : OthersOk i s) (c : Client) : OthersOk i (s.setClient i c) := by
  intro j hj
  rw [Server.setClient_clients_of_ne _ _ hj]
  exact h j hj

theorem OthersOk.all (h : OthersOk i s) (hi : InputOk (s.clients i)) : InputsOk s := by
  intro j
  by_cases hj : j = i
  · rwa [hj]
  · exact h j hj

theorem InputsOk.setClient (h : InputsOk s) (hc : InputOk c) : InputsOk (s.setClient i c) := by
  have hothers : OthersOk i s := fun j _ => h j
  refine (hothers.setClient c).all ?_
  rwa [Server.setClient_clients_self]

theorem InputsOk.disconnect (h : InputsOk s) (i : Slot) : InputsOk (s.disconnectClient i) := by
  unfold Server.disconnectClient
  split
  · exact h
  · exact InputsOk.setClient (s := s.closeFd (s.clients i).fd) h inputOk_free

end Slots

/-- One round of the loop: the buffers of the others stay right, and the client's own is at most
the rest after the line. -/
theorem processLine_inputs {s : Server} {i : Slot} (hactive : (s.clients i).active = true)
    (hothers : OthersOk i s) (env : LineEnv) (line : Bytes) :
    OthersOk i (s.processLine env i (cstr line)).1 ∧
      ((s.processLine env i (cstr line)).1.clients i).inputBuffer.length ≤
        (s.clients i).inputBuffer.length := by
  have hbuffers := processLine_buffers hactive env line
  constructor
  · intro j hj
    rcases hbuffers j with hfree | hsame
    · rw [hfree]
      exact inputOk_free
    · exact (hothers j hj).of_same hsame
  · rcases hbuffers i with hfree | hsame
    · rw [hfree]
      exact Nat.zero_le _
    · rw [hsame.2.2]

/-- The loop goes on until the buffer holds no complete line: the rounds do not run out, because
every round makes the buffer shorter. -/
theorem lineLoop_inputs (envs : ℕ → LineEnv) (i : Slot) (rounds : ℕ) (s : Server)
    (hothers : OthersOk i s) (hsize : (s.clients i).inputBuffer.length < inputBufferSize)
    (hrounds : (s.clients i).inputBuffer.length ≤ rounds) :
    InputsOk (Server.lineLoop envs i rounds s) := by
  induction rounds generalizing s with
  | zero =>
    have hnil : (s.clients i).inputBuffer = [] := List.eq_nil_of_length_eq_zero (by omega)
    exact hothers.all (fun _ => ⟨hsize,by simp [hnil]⟩)
  | succ rounds ih =>
    rw [Server.lineLoop]
    split
    · next hidle => exact hothers.all (fun hactive => by simp [hactive] at hidle)
    · next hactive =>
      simp only [Bool.not_eq_true,Bool.not_eq_false'] at hactive
      split
      · next hnone => exact hothers.all (fun _ => ⟨hsize,firstLine_eq_none hnone⟩)
      · next line rest hsome =>
        have hlen := firstLine_length hsome
        obtain ⟨s₁,hs₁⟩ : ∃ s₁, s₁ = s.setClient i { s.clients i with inputBuffer := rest } :=
          ⟨_,rfl⟩
        have hself : s₁.clients i = { s.clients i with inputBuffer := rest } := by
          rw [hs₁,Server.setClient_clients_self]
        have hothers₁ : OthersOk i s₁ := by
          rw [hs₁]
          exact hothers.setClient _
        obtain ⟨hothers₂,hshort⟩ := processLine_inputs (by rw [hself]; exact hactive) hothers₁
          (envs rounds) line
        rw [hself] at hshort
        dsimp only at hshort
        rw [← hs₁]
        dsimp only
        split
        · next hleft =>
          have hclosed := processLine_closesOwn s₁ (envs rounds) i (cstr line) (by simpa using hleft)
          refine hothers₂.all (fun hopen => ?_)
          rw [hclosed] at hopen
          contradiction
        · exact ih _ hothers₂ (by omega) (by omega)

theorem handleAccept_inputs {s : Server} (h : InputsOk s) (answer : AcceptAnswer) :
    InputsOk (s.handleAccept answer) := by
  have hnew : InputOk (Client.connected answer.fd) := fun _ =>
    ⟨show 0 < inputBufferSize by decide,by simp [Client.connected]⟩
  simp only [Server.handleAccept]
  split
  · exact h
  · next i _ =>
    have hconnected : InputsOk ((s.openFd answer.fd).setClient i (Client.connected answer.fd)) :=
      InputsOk.setClient (s := s.openFd answer.fd) h hnew
    split
    · exact hconnected.disconnect i
    · exact hconnected

theorem handleData_inputs {s : Server} (h : InputsOk s) (i : Slot) (bytes : Bytes)
    (envs : ℕ → LineEnv) : InputsOk (s.handleData i bytes envs) := by
  simp only [Server.handleData]
  split
  · have hcleared : InputOk { s.clients i with inputBuffer := [] } :=
      fun _ => ⟨show 0 < inputBufferSize by decide,List.not_mem_nil⟩
    exact InputsOk.setClient (s := s.sendText _ _) h hcleared
  · next hfits =>
    have hothers : OthersOk i s := fun j _ => h j
    apply lineLoop_inputs
    · exact hothers.setClient _
    · rw [Server.setClient_clients_self,List.length_append]
      omega
    · rw [Server.setClient_clients_self]

theorem handleEntry_inputs {s : Server} (h : InputsOk s) (e : Entry) :
    InputsOk (s.handleEntry e) := by
  unfold Server.handleEntry
  split
  · cases e.accept with
    | none => exact h
    | some answer => exact handleAccept_inputs h answer
  · split
    · exact h
    · next i _ =>
      obtain ⟨t,ht⟩ : ∃ t : Server, t = { s with journal := s.journal ++ [.recv e.fd (s.fds e.fd)] } :=
        ⟨_,rfl⟩
      have hinputs : InputsOk t := by
        rw [ht]
        exact h
      rw [← ht]
      cases e.recv with
      | fin => exact hinputs.disconnect i
      | interrupted => exact hinputs
      | error => exact hinputs.disconnect i
      | data bytes envs => exact handleData_inputs hinputs i bytes envs

end Input

end NetLab.Chat
