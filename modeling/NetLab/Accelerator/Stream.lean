import NetLab.Accelerator.Wire

/-! Ends of streams over whole runs: when the bytes sent before a `shutdown` are the whole stream
of the other peer, and when a destroyed connection has passed on all that it received. -/
namespace NetLab.Accelerator

open Stage

/-- How the sockets and the reports still to be handled relate to the calls made so far. -/
structure WiredInv (w : Wired) : Prop where
  arrived : ∀ d, (w.socket d).arrived =
    receivedFrom d w.polled.session.log ++ (w.socket d).unread
  closed : ∀ d, w.polled.session.conn.readOpen d = false → (w.socket d).fin = true
  reports : ∀ e ∈ w.polled.batch, e.2.epollerr = false ∧
    (e.2.epollrdhup = true → (w.socket e.1).fin = true) ∧
    (e.2.epollhup = true → (w.socket e.1).fin = true ∧ .shutdown e.1 ∈ w.polled.session.log)

/-- An orderly `recv` takes an initial part of the unread bytes. -/
theorem taken_prefix {ans : Answers} {socket : Socket} (h : ans.Orderly socket) (d : Side)
    (events : Events) (conn : Connection) : taken d events ans conn <+: socket.unread := by
  rw [taken,(processEvent_self d events ans conn).1]
  split_ifs
  · cases hr : ans.recv with
    | data bytes =>
      have hdata := h.1
      simp only [hr] at hdata
      simpa [RecvResult.bytes] using hdata
    | _ => exact List.nil_prefix
  · exact List.nil_prefix

/-- Handling an event extends the bytes received from its own side by those it takes. -/
theorem Session.handle_received (s : Session) (d : Side) (events : Events) (ans : Answers) :
    receivedFrom d (s.handle d events ans).log =
        receivedFrom d s.log ++ taken d events ans s.conn ∧
      receivedFrom d.other (s.handle d events ans).log = receivedFrom d.other s.log := by
  obtain ⟨calls,hlog,hcalls⟩ := s.handle_log d events ans
  have hnone : ∀ e, receivedFrom e calls = [] := by
    intro e
    rcases hcalls with rfl | rfl <;> simp [receivedFrom,Call.received]
  have hother := (processEvent_other d events ans s.conn s.log).2
  rw [hlog]
  constructor
  · simp [hnone,taken]
  · rw [receivedFrom_append,hnone,List.append_nil]
    exact hother

theorem Session.log_prefix_handle (s : Session) (d : Side) (events : Events) (ans : Answers) :
    s.log <+: (s.handle d events ans).log := by
  obtain ⟨calls,hlog,-⟩ := s.handle_log d events ans
  rw [hlog,List.append_assoc]
  exact List.prefix_append _ _

theorem initial_inv : WiredInv Wired.initial where
  arrived d := by
    simp [Wired.initial,Session.created,receivedFrom,Call.received]
  closed d h := by simp [Wired.initial,Session.created] at h
  reports := by simp [Wired.initial]

/-- The peers only touch their own sockets, and never take anything back. -/
theorem WiredInv.peer {w : Wired} (h : WiredInv w) (d : Side) (socket : Socket)
    (harrived : socket.arrived = receivedFrom d w.polled.session.log ++ socket.unread)
    (hfin : (w.socket d).fin = true → socket.fin = true) :
    WiredInv { w with socket := Function.update w.socket d socket } := by
  have hmono : ∀ e, (w.socket e).fin = true → (Function.update w.socket d socket e).fin = true := by
    intro e he
    by_cases hed : e = d
    · subst hed
      simpa using hfin he
    · rwa [Function.update_of_ne hed]
  refine ⟨fun e => ?_,fun e he => hmono e (h.closed e he),fun e he => ?_⟩
  · by_cases hed : e = d
    · subst hed
      simpa using harrived
    · simpa [Function.update_of_ne hed] using h.arrived e
  · obtain ⟨herr,hrd,hup⟩ := h.reports e he
    exact ⟨herr,fun hr => hmono _ (hrd hr),fun hh => ⟨hmono _ (hup hh).1,(hup hh).2⟩⟩

/-- The sockets after the event at the head of the batch has been handled. -/
def Wired.socketsAfter (w : Wired) (e : Side × Events) (ans : Answers) : Side → Socket :=
  Function.update w.socket e.1 { w.socket e.1 with
    unread := (w.socket e.1).unread.drop (taken e.1 e.2 ans w.polled.session.conn).length }

theorem Wired.socketsAfter_fin (w : Wired) (e : Side × Events) (ans : Answers) (d : Side) :
    (w.socketsAfter e ans d).fin = (w.socket d).fin ∧
      (w.socketsAfter e ans d).arrived = (w.socket d).arrived := by
  by_cases hd : d = e.1
  · subst hd
    simp [Wired.socketsAfter]
  · simp [Wired.socketsAfter,Function.update_of_ne hd]

/-- After an event a side closed for reading was closed before, or its FIN has been noticed. -/
theorem closed_after {w : Wired} (h : WiredInv w) {e : Side × Events}
    (he : e ∈ w.polled.batch) {ans : Answers} (hord : ans.Orderly (w.socket e.1)) {d : Side}
    (hclosed : (w.polled.session.handle e.1 e.2 ans).conn.readOpen d = false) :
    (w.socket d).fin = true := by
  rw [Session.handle_conn] at hclosed
  rcases e.1.eq_or_eq_other d with rfl | rfl
  · rcases (processEvent_self e.1 e.2 ans _).2 hclosed with hold | ⟨-,hfin⟩ | ⟨hrd,-⟩
    · exact h.closed _ hold
    · have hrecv := hord.1
      simp only [hfin] at hrecv
      exact hrecv.2
    · exact (h.reports e he).2.1 hrd
  · rw [(processEvent_other e.1 e.2 ans _ []).1] at hclosed
    exact h.closed _ hclosed

theorem WiredInv.handle {w : Wired} (h : WiredInv w) {e : Side × Events}
    {rest : List (Side × Events)} (hb : w.polled.batch = e::rest) {ans : Answers}
    (hord : ans.Orderly (w.socket e.1)) :
    WiredInv ⟨⟨w.polled.session.handle e.1 e.2 ans,rest⟩,w.socketsAfter e ans⟩ := by
  have hmem : e ∈ w.polled.batch := by rw [hb]; exact List.mem_cons_self
  obtain ⟨hself,hother⟩ := w.polled.session.handle_received e.1 e.2 ans
  constructor
  · intro d
    rcases e.1.eq_or_eq_other d with rfl | rfl
    · obtain ⟨tail,htail⟩ := taken_prefix hord e.1 e.2 w.polled.session.conn
      have hdrop : (w.socketsAfter e ans e.1).unread = tail := by
        simp [Wired.socketsAfter,← htail]
      rw [(w.socketsAfter_fin e ans e.1).2,h.arrived,hdrop,hself,List.append_assoc,htail]
    · rw [(w.socketsAfter_fin e ans _).2,h.arrived,hother]
      simp [Wired.socketsAfter,Function.update_of_ne e.1.other_ne]
  · intro d hd
    rw [(w.socketsAfter_fin e ans d).1]
    exact closed_after h hmem hord hd
  · intro e' he'
    obtain ⟨herr,hrd,hup⟩ := h.reports e' (by rw [hb]; exact List.mem_cons_of_mem _ he')
    refine ⟨herr,fun hr => ?_,fun hh => ⟨?_,?_⟩⟩
    · rw [(w.socketsAfter_fin e ans _).1]
      exact hrd hr
    · rw [(w.socketsAfter_fin e ans _).1]
      exact (hup hh).1
    · exact (w.polled.session.log_prefix_handle e.1 e.2 ans).subset (hup hh).2

theorem WiredInv.wait {w : Wired} (h : WiredInv w) {batch : List (Side × Events)}
    (hrep : ∀ e ∈ batch, Reports w e.1 e.2) :
    WiredInv { w with polled := { w.polled with batch := batch } } := by
  refine ⟨h.arrived,h.closed,fun e he => ?_⟩
  have hr := hrep e he
  refine ⟨hr.epollerr,fun hrd => ?_,fun hup => ?_⟩
  · rw [hr.epollrdhup,Bool.and_eq_true] at hrd
    exact hrd.2
  · rw [hr.epollhup,Bool.and_eq_true,decide_eq_true_eq] at hup
    exact hup

theorem WiredInv.step {w v : Wired} (h : WiredInv w) {a : WireLabel} (hv : w.step a = some v) :
    WiredInv v := by
  cases a with
  | arrive d bytes =>
    obtain ⟨-,rfl⟩ := guarded_eq_some.mp hv
    apply h.peer d
    · simp [h.arrived]
    · exact id
  | finish d =>
    obtain ⟨-,rfl⟩ := guarded_eq_some.mp hv
    apply h.peer d
    · exact h.arrived d
    · exact fun _ => rfl
  | wait batch =>
    obtain ⟨hrep,-,rfl⟩ := Wired.step_wait hv
    exact h.wait hrep
  | handle ans =>
    obtain ⟨e,rest,hb,hord,-,-,rfl⟩ := Wired.step_handle hv
    exact h.handle hb hord

theorem wired_inv {ok : Wired → WireLabel → Prop} {w : Wired} (h : wired.ReachableUnder ok w) :
    WiredInv w := by
  refine h.invariant ?_ (fun _ _ _ _ hw _ hv => hw.step hv)
  rintro w rfl
  exact initial_inv

/-- An event with `EPOLLRDHUP`, and without `EPOLLHUP`, is handled only when no byte of its
socket is unread or when its `recv` takes all that are. -/
def DrainedEnd (w : Wired) : WireLabel → Prop
  | .handle ans => ∀ e ∈ w.polled.batch.head?, e.2.epollrdhup = true → e.2.epollhup = false →
      (w.socket e.1).unread = [] ∨
        (e.2.epollin = true ∧ ans.recv = .data (w.socket e.1).unread)
  | _ => True

instance (w : Wired) : (a : WireLabel) → Decidable (DrainedEnd w a)
  | .handle _ => by unfold DrainedEnd; infer_instance
  | .arrive _ _ | .finish _ | .wait _ => inferInstanceAs (Decidable True)

/-- An event that closes its side has left nothing unread there. -/
theorem closes_drained {w : Wired} (hp : PolledInv w.polled) {e : Side × Events}
    (he : e ∈ w.polled.batch.head?) {ans : Answers} (hord : ans.Orderly (w.socket e.1))
    (hok : DrainedEnd w (.handle ans))
    (hold : w.polled.session.conn.readOpen e.1 = false → (w.socket e.1).unread = [])
    (hclosed : (w.polled.session.handle e.1 e.2 ans).conn.readOpen e.1 = false) :
    (w.socketsAfter e ans e.1).unread = [] := by
  have hempty : (w.socket e.1).unread = [] → (w.socketsAfter e ans e.1).unread = [] := by
    intro hnil
    simp [Wired.socketsAfter,hnil]
  rw [Session.handle_conn] at hclosed
  rcases (processEvent_self e.1 e.2 ans _).2 hclosed with hwas | ⟨-,hfin⟩ | ⟨hrd,hup⟩
  · exact hempty (hold hwas)
  · have hrecv := hord.1
    simp only [hfin] at hrecv
    exact hempty hrecv.1
  · rcases hok e he hrd hup with hnil | ⟨hin,hall⟩
    · exact hempty hnil
    · have hroom := (hp.readable e (List.mem_of_mem_head? he) hin).2
      have htaken : taken e.1 e.2 ans w.polled.session.conn = (w.socket e.1).unread := by
        rw [taken,(processEvent_self e.1 e.2 ans _).1,if_pos ⟨hin,hroom⟩,hall]
        rfl
      simp [Wired.socketsAfter,htaken]

/-- No byte is unread on a side closed for reading. -/
def ReadToEnd (w : Wired) : Prop :=
  ∀ d, w.polled.session.conn.readOpen d = false → (w.socket d).unread = []

theorem drained_readToEnd {w : Wired} (h : wired.ReachableUnder DrainedEnd w) : ReadToEnd w := by
  refine h.invariant ?_ ?_
  · rintro w rfl d hd
    rfl
  · intro w a v hw ih hok hv d hd
    have hwi := wired_inv hw
    change w.step a = some v at hv
    cases a with
    | arrive e bytes =>
      obtain ⟨hopen,rfl⟩ := guarded_eq_some.mp hv
      have hde : d ≠ e := by
        rintro rfl
        rw [hwi.closed d hd] at hopen
        contradiction
      simpa [Function.update_of_ne hde] using ih d hd
    | finish e =>
      obtain ⟨hopen,rfl⟩ := guarded_eq_some.mp hv
      have hde : d ≠ e := by
        rintro rfl
        rw [hwi.closed d hd] at hopen
        contradiction
      simpa [Function.update_of_ne hde] using ih d hd
    | wait batch =>
      obtain ⟨-,-,rfl⟩ := Wired.step_wait hv
      exact ih d hd
    | handle ans =>
      obtain ⟨e,rest,hb,hord,-,-,rfl⟩ := Wired.step_handle hv
      rcases e.1.eq_or_eq_other d with rfl | rfl
      · exact closes_drained (polled_inv (wired_polled hw)) (by rw [hb]; rfl) hord hok (ih _) hd
      · change (w.polled.session.handle e.1 e.2 ans).conn.readOpen e.1.other = false at hd
        rw [Session.handle_conn,(processEvent_other e.1 e.2 ans _ []).1] at hd
        simpa [Function.update_of_ne e.1.other_ne] using ih _ hd

/-- When all `EPOLLRDHUP` events are drained, each `shutdown` comes after the end of the other
peer's stream, and what was sent before it is that whole stream. -/
theorem shutdown_whole {w : Wired} (h : wired.ReachableUnder DrainedEnd w) (d : Side)
    {pre post : List Call} (hlog : w.polled.session.log = pre ++ .shutdown d.other :: post) :
    (w.socket d).fin = true ∧ sentTo d.other pre = (w.socket d).arrived := by
  have hinv := wired_inv h
  have hrelay := (polled_inv (wired_polled h)).relaying
  have hd := hrelay.2 d
  rw [hlog] at hd
  obtain ⟨hsent,hquiet,hw⟩ := hd.after_shutdown
  have hclosed := (hrelay.2 d).closed hw
  have hpost : receivedFrom d post = [] := by
    rw [(streams_eq_moves d post).1,hquiet]
    rfl
  have hall : receivedFrom d w.polled.session.log = receivedFrom d pre := by
    rw [hlog,receivedFrom_append]
    simpa [receivedFrom,Call.received] using hpost
  refine ⟨hinv.closed d hclosed,?_⟩
  rw [hinv.arrived d,drained_readToEnd h d hclosed,hall,List.append_nil,hsent]

/-- An event with `EPOLLHUP` is handled only when the buffer filled from its side is empty and
the end of that side's stream has been read, or is read by the event itself. -/
def DrainedHangup (w : Wired) : WireLabel → Prop
  | .handle ans => ∀ e ∈ w.polled.batch.head?, e.2.epollhup = true →
      bufferEmpty (w.polled.session.conn.readBuf e.1) = true ∧
        (w.polled.session.conn.readOpen e.1 = false ∨ (e.2.epollin = true ∧ ans.recv = .fin))
  | _ => True

instance (w : Wired) : (a : WireLabel) → Decidable (DrainedHangup w a)
  | .handle _ => by unfold DrainedHangup; infer_instance
  | .arrive _ _ | .finish _ | .wait _ => inferInstanceAs (Decidable True)

/-- No stage of a handler destroys the connection; only the main loop does. -/
theorem processEvent_no_destroy (d : Side) (events : Events) (ans : Answers) :
    Keeps (fun _ log => .destroy ∉ log) (processEvent d events ans) := by
  have hreceive : Keeps (fun _ log => .destroy ∉ log) (receiveStage d events ans.recv) := by
    intro conn log h
    have hcalls := receiveIntoBuffer_calls d (conn.readBuf d) ans.recv
    simp only [receiveStage]
    split_ifs <;> split_ifs at hcalls <;> simp [h,hcalls]
  have hflush : Keeps (fun _ log => .destroy ∉ log) (flushStage d events ans.send) := by
    intro conn log h
    have hcalls := flushBuffer_calls d (conn.readBuf d.other) ans.send
    simp only [flushStage]
    split_ifs <;> split_ifs at hcalls <;> simp [h,hcalls]
  have hhangup : Keeps (fun _ log => .destroy ∉ log) (hangupStage d events) := by
    intro conn log h
    simp only [hangupStage]
    split_ifs <;> simpa using h
  have hshutdown : Keeps (fun _ log => .destroy ∉ log) (shutdownStage d) := by
    intro conn log h
    simp only [shutdownStage]
    split_ifs <;> simp [h]
  have hmod : ∀ fd ev ok, Keeps (fun _ log => .destroy ∉ log) (epollModify fd ev ok) := by
    intro fd ev ok conn log h
    simp [epollModify,h]
  exact hreceive.andThen (hflush.andThen (hhangup.andThen (hshutdown.andThen
    (fun conn log h => (hmod _ _ _).andThen (hmod _ _ _) conn log h))))

/-- On a reported hangup the handler stops after the transfer stages. -/
theorem processEvent_hangup {d : Side} {events : Events} {ans : Answers} {conn : Connection}
    (hwf : ∀ e, (conn.readBuf e).Wf) (ha : ans.Fit d conn) (hup : ReportsHangup events)
    (hok : ¬ (ReceiveFails d events ans conn ∨ FlushFails d events ans conn)) :
    Transferred d events ans conn (processEvent d events ans conn).state := by
  obtain ⟨hcode,htransfer⟩ := transfer_exact hwf ha conn rfl
  have hpass : ¬ ((receiveStage d events ans.recv).andThen
      (flushStage d events ans.send) conn).code < 0 := fun hc => hok (hcode.mp hc)
  have hstop : ∀ s, (hangupStage d events s).code < 0 ∧ (hangupStage d events s).state = s := by
    intro s
    have hor : (events.epollerr || events.epollhup) = true := by
      rw [Bool.or_eq_true]
      exact hup
    simp [hangupStage,hor]
  have hsplit : processEvent d events ans conn =
      ((receiveStage d events ans.recv).andThen (flushStage d events ans.send)).andThen
        ((hangupStage d events).andThen ((shutdownStage d).andThen (updateConnectionEvents ans)))
        conn := by
    rw [Stage.andThen_assoc]
    rfl
  have hstate : (processEvent d events ans conn).state =
      ((receiveStage d events ans.recv).andThen (flushStage d events ans.send) conn).state := by
    rw [hsplit,Stage.andThen]
    simp only [if_neg hpass]
    rw [Stage.andThen]
    simp only [if_pos (hstop _).1,(hstop _).2]
  rw [hstate]
  exact htransfer hok

/-- A hangup in an orderly run destroys a connection that has finished, if it is drained. -/
theorem hangup_finished {w : Wired} (hw : wired.Reachable w) {e : Side × Events}
    (he : e ∈ w.polled.batch) {ans : Answers} (hfit : ans.Fit e.1 w.polled.session.conn)
    (hup : e.2.epollhup = true)
    (hok : ¬ (ReceiveFails e.1 e.2 ans w.polled.session.conn ∨
      FlushFails e.1 e.2 ans w.polled.session.conn))
    (hempty : bufferEmpty (w.polled.session.conn.readBuf e.1) = true)
    (hend : w.polled.session.conn.readOpen e.1 = false ∨ (e.2.epollin = true ∧ ans.recv = .fin)) :
    connectionFinished (processEvent e.1 e.2 ans w.polled.session.conn).state = true := by
  have hpolled := wired_polled hw
  have hinv := polled_inv hpolled
  have hwf := hinv.relaying.1.wf
  have ht := processEvent_hangup hwf hfit (Or.inr hup) hok
  -- the kernel reports a hangup only after the relay's own shutdown of this side
  have hshut := ((wired_inv hw).reports e he).2.2 hup
  obtain ⟨hclosed,hdrained⟩ := hinv.ended (d := e.1.other) (by rw [Side.other_other]; exact hshut.2)
  rw [connectionFinished_iff]
  intro d
  rcases e.1.eq_or_eq_other d with rfl | rfl
  · constructor
    · rw [ht.readOpen_iff]
      exact hend.imp id (fun h => ⟨h.1,receiveRoom_pos_of_empty (hwf _) hempty,h.2⟩)
    · rw [ht.inbound]
      refine ⟨hempty,?_⟩
      rintro ⟨hin,bytes,hdata⟩
      rcases hend with hc | ⟨-,hfin⟩
      · rw [(hinv.readable e he hin).1] at hc
        contradiction
      · rw [hdata] at hfin
        contradiction
  · exact ⟨by rw [ht.readOpen_other]; exact hclosed,by rw [ht.outbound]; exact Or.inl hdrained⟩

theorem Answers.Orderly.no_transfer_failure {ans : Answers} {socket : Socket}
    (h : ans.Orderly socket) (d : Side) (events : Events) (conn : Connection) :
    ¬ (ReceiveFails d events ans conn ∨ FlushFails d events ans conn) := by
  rintro (⟨-,-,hrecv⟩ | ⟨-,-,hsend⟩)
  · have hr := h.1
    simp only [hrecv] at hr
  · exact h.2.1 hsend

/-- An orderly event destroys its connection only after finishing it. -/
theorem handle_finished {w : Wired} (hw : wired.Reachable w) {e : Side × Events}
    (he : e ∈ w.polled.batch.head?) {ans : Answers} (hord : ans.Orderly (w.socket e.1))
    (hfit : ans.Fit e.1 w.polled.session.conn) (hok : DrainedHangup w (.handle ans))
    (hdead : (w.polled.session.handle e.1 e.2 ans).live = false) :
    connectionFinished (processEvent e.1 e.2 ans w.polled.session.conn).state = true := by
  have hmem := List.mem_of_mem_head? he
  have hinv := polled_inv (wired_polled hw)
  have hno := hord.no_transfer_failure e.1 e.2 w.polled.session.conn
  simp only [Session.handle] at hdead
  split_ifs at hdead with hcode hfinished
  · rcases (processEvent_exact hinv.relaying.1.wf hfit _ rfl).1.mp hcode with ht | hup | hmod
    · exact absurd ht hno
    · have herr := ((wired_inv hw).reports e hmem).1
      have hhup : e.2.epollhup = true := hup.resolve_left (by simp [herr])
      obtain ⟨hempty,hend⟩ := hok e he hhup
      exact hangup_finished hw hmem hfit hhup hno hempty hend
    · rcases hmod with hc | hs
      · rw [hord.2.2.1] at hc
        contradiction
      · rw [hord.2.2.2] at hs
        contradiction
  · exact hfinished

/-- A connection is gone exactly when its destruction is in the log, and then it has finished. -/
structure EndsFinished (w : Wired) : Prop where
  live : .destroy ∈ w.polled.session.log ↔ w.polled.session.live = false
  finished : w.polled.session.live = false → connectionFinished w.polled.session.conn = true

theorem drained_endsFinished {w : Wired} (h : wired.ReachableUnder DrainedHangup w) :
    EndsFinished w := by
  refine h.invariant ?_ ?_
  · rintro w rfl
    exact ⟨by decide,by decide⟩
  · intro w a v hw ih hok hv
    change w.step a = some v at hv
    cases a with
    | arrive d bytes =>
      obtain ⟨-,rfl⟩ := guarded_eq_some.mp hv
      exact ⟨ih.live,ih.finished⟩
    | finish d =>
      obtain ⟨-,rfl⟩ := guarded_eq_some.mp hv
      exact ⟨ih.live,ih.finished⟩
    | wait batch =>
      obtain ⟨-,-,rfl⟩ := Wired.step_wait hv
      exact ⟨ih.live,ih.finished⟩
    | handle ans =>
      obtain ⟨e,rest,hb,hord,hlive,hfit,rfl⟩ := Wired.step_handle hv
      have hhead : e ∈ w.polled.batch.head? := by rw [hb]; rfl
      constructor
      · have hnot : .destroy ∉ w.polled.session.log := by
          rw [ih.live,hlive]
          simp
        have hcalls := processEvent_no_destroy e.1 e.2 ans w.polled.session.conn _ hnot
        simp only [Session.handle]
        split_ifs
        · simp
        · simp
        · simpa using hcalls
      · intro hdead
        have hfin := handle_finished hw.reachable hhead hord hfit hok hdead
        change connectionFinished (w.polled.session.handle e.1 e.2 ans).conn = true
        rw [Session.handle_conn]
        exact hfin

/-- A finished connection has seen both ends of stream and has sent on everything it received. -/
theorem finished_drained {w : Wired} (hw : wired.Reachable w)
    (hfinished : connectionFinished w.polled.session.conn = true) (d : Side) :
    (w.socket d).fin = true ∧ w.polled.session.conn.readOpen d = false ∧
      bufferEmpty (w.polled.session.conn.readBuf d) = true ∧
      sentTo d.other w.polled.session.log = receivedFrom d w.polled.session.log := by
  obtain ⟨hclosed,hempty⟩ := (connectionFinished_iff _).mp hfinished d
  have hf := (polled_inv (wired_polled hw)).relaying.1
  refine ⟨(wired_inv hw).closed d hclosed,hclosed,hempty,?_⟩
  rw [hf.stream d,((hf.wf d).bufferEmpty_iff).mp hempty,List.append_nil]

/-- In every run whose `EPOLLHUP` events are all drained, a destroyed connection has seen both
ends of stream, holds nothing in its buffers, and has sent on everything it received. -/
theorem destroyed_drained {w : Wired} (h : wired.ReachableUnder DrainedHangup w)
    (hdestroy : .destroy ∈ w.polled.session.log) (d : Side) :
    (w.socket d).fin = true ∧ w.polled.session.conn.readOpen d = false ∧
      bufferEmpty (w.polled.session.conn.readBuf d) = true ∧
      sentTo d.other w.polled.session.log = receivedFrom d w.polled.session.log := by
  have hends := drained_endsFinished h
  exact finished_drained h.reachable (hends.finished (hends.live.mp hdestroy)) d

/-- The server ends its stream first, and the relay passes that on to the client. -/
def serverEndsFirst : List WireLabel :=
  [.finish .server,.wait [(.server,{ epollin := true, epollrdhup := true })],
   .handle ⟨.fin,.wouldBlock,true,true⟩]

/-- Then the client ends its stream too, with nothing left to send. -/
def bothEnd : List WireLabel := serverEndsFirst ++
  [.finish .client,.wait [(.client,{ epollin := true, epollrdhup := true, epollhup := true })],
   .handle ⟨.fin,.wouldBlock,true,true⟩]

theorem bothEnd_drained : ∃ w, wired.ReachableUnder DrainedHangup w ∧
    .destroy ∈ w.polled.session.log ∧ (w.socket .client).fin = true ∧
      bufferEmpty w.polled.session.conn.c2s = true := by
  have hr : ((wired.restrict DrainedHangup).run bothEnd Wired.initial).isSome = true := by decide
  obtain ⟨w,hw⟩ := Option.isSome_iff_exists.mp hr
  have hreach : wired.ReachableUnder DrainedHangup w := .of_run (.init rfl) hw
  have hmem : ((wired.restrict DrainedHangup).run bothEnd Wired.initial).map
      (fun w => decide (.destroy ∈ w.polled.session.log)) = some true := by decide
  rw [hw] at hmem
  have hdestroy : .destroy ∈ w.polled.session.log := by simpa using hmem
  have hd := destroyed_drained hreach hdestroy .client
  exact ⟨w,hreach,hdestroy,hd.1,hd.2.2.1⟩

/-- The client sends one more byte before it ends its stream: the byte, the end of the stream
and the hangup are reported in one event. -/
def lastByte : List WireLabel := serverEndsFirst ++
  [.arrive .client [1],.finish .client,
   .wait [(.client,{ epollin := true, epollrdhup := true, epollhup := true })],
   .handle ⟨.data [1],.wouldBlock,true,true⟩]

/-- The connection is destroyed with a received byte that was never sent on. -/
theorem lastByte_discarded : ¬ ∀ w, wired.Reachable w → .destroy ∈ w.polled.session.log →
    ∀ d, bufferEmpty (w.polled.session.conn.readBuf d) = true ∧
      sentTo d.other w.polled.session.log = receivedFrom d w.polled.session.log := by
  intro hall
  have hr : (wired.run lastByte Wired.initial).isSome = true := by decide
  obtain ⟨w,hw⟩ := Option.isSome_iff_exists.mp hr
  have hfacts : (wired.run lastByte Wired.initial).map
      (fun w => (decide (.destroy ∈ w.polled.session.log),
        bufferEmpty (w.polled.session.conn.readBuf .client))) = some (true,false) := by decide
  rw [hw] at hfacts
  obtain ⟨hmem,hfull⟩ : .destroy ∈ w.polled.session.log ∧
      bufferEmpty (w.polled.session.conn.readBuf .client) = false := by simpa using hfacts
  have hempty := (hall w (.of_run (.init rfl) hw) hmem .client).1
  rw [hfull] at hempty
  contradiction

/-- No event cuts a stream off, neither one with `EPOLLRDHUP` nor one with `EPOLLHUP`. -/
def WholeEnd (w : Wired) (a : WireLabel) : Prop :=
  DrainedEnd w a ∧ DrainedHangup w a

instance (w : Wired) (a : WireLabel) : Decidable (WholeEnd w a) :=
  inferInstanceAs (Decidable (_ ∧ _))

/-- In every run whose `EPOLLRDHUP` and `EPOLLHUP` events are all drained, each end of stream that
a peer is given, by a `shutdown` or by the destruction of the connection, comes after the end of
the other peer's stream, and what was sent before it is that whole stream. -/
theorem forwarded_end_is_whole {w : Wired} (h : wired.ReachableUnder WholeEnd w) (d : Side) :
    (∀ pre post, w.polled.session.log = pre ++ .shutdown d.other :: post →
        (w.socket d).fin = true ∧ sentTo d.other pre = (w.socket d).arrived) ∧
      (.destroy ∈ w.polled.session.log → (w.socket d).fin = true ∧
        sentTo d.other w.polled.session.log = (w.socket d).arrived) := by
  have hend : wired.ReachableUnder DrainedEnd w := h.mono (fun _ _ hok => hok.1)
  have hhangup : wired.ReachableUnder DrainedHangup w := h.mono (fun _ _ hok => hok.2)
  constructor
  · intro pre post hlog
    exact shutdown_whole hend d hlog
  · intro hdestroy
    have hends := drained_endsFinished hhangup
    have hfinished := hends.finished (hends.live.mp hdestroy)
    obtain ⟨hfin,hclosed,-,hsent⟩ := finished_drained h.reachable hfinished d
    refine ⟨hfin,?_⟩
    rw [(wired_inv h).arrived d,drained_readToEnd hend d hclosed,hsent,List.append_nil]

/-- The client sends two bytes and its FIN at once. -/
def shortStream : List WireLabel := [.arrive .client [1,2],.finish .client]

/-- One `recv` takes both bytes, the server gets them before its end of stream, and then the
server ends its own stream, which destroys the connection. -/
def wholeStream : List WireLabel := shortStream ++
  [.wait [(.client,{ epollin := true, epollrdhup := true })],
   .handle ⟨.data [1,2],.wouldBlock,true,true⟩,
   .wait [(.server,{ epollout := true })],.handle ⟨.wouldBlock,.sent 2,true,true⟩,
   .wait [(.client,{ epollrdhup := true })],.handle ⟨.wouldBlock,.wouldBlock,true,true⟩,
   .finish .server,
   .wait [(.server,{ epollin := true, epollrdhup := true, epollhup := true })],
   .handle ⟨.fin,.wouldBlock,true,true⟩]

theorem wholeStream_forwarded : ∃ w pre post,
    wired.ReachableUnder WholeEnd w ∧
      w.polled.session.log = pre ++ .shutdown .server :: post ∧
      .destroy ∈ w.polled.session.log ∧
      (w.socket .client).fin = true ∧ sentTo .server pre = (w.socket .client).arrived ∧
      sentTo .server w.polled.session.log = (w.socket .client).arrived := by
  have hr : ((wired.restrict WholeEnd).run wholeStream Wired.initial).isSome = true := by decide
  obtain ⟨w,hw⟩ := Option.isSome_iff_exists.mp hr
  have hreach : wired.ReachableUnder WholeEnd w := .of_run (.init rfl) hw
  have hmem : ((wired.restrict WholeEnd).run wholeStream Wired.initial).map
      (fun w => (decide (.shutdown .server ∈ w.polled.session.log),
        decide (.destroy ∈ w.polled.session.log))) = some (true,true) := by decide
  rw [hw] at hmem
  obtain ⟨hshut,hdestroy⟩ : .shutdown .server ∈ w.polled.session.log ∧
      .destroy ∈ w.polled.session.log := by simpa using hmem
  obtain ⟨pre,post,hlog⟩ := List.append_of_mem hshut
  have hwhole := forwarded_end_is_whole hreach .client
  have hpre := hwhole.1 pre post hlog
  exact ⟨w,pre,post,hreach,hlog,hdestroy,hpre.1,hpre.2,(hwhole.2 hdestroy).2⟩

/-- One `recv` takes one byte of two, and `EPOLLRDHUP` closes the side all the same. -/
def cutStream : List WireLabel := shortStream ++
  [.wait [(.client,{ epollin := true, epollrdhup := true })],
   .handle ⟨.data [1],.wouldBlock,true,true⟩,
   .wait [(.server,{ epollout := true })],.handle ⟨.wouldBlock,.sent 1,true,true⟩,
   .wait [(.client,{ epollrdhup := true })],.handle ⟨.wouldBlock,.wouldBlock,true,true⟩]

/-- The server is told that a stream ended of which it has not got every byte. -/
theorem cutStream_truncated : ¬ ∀ w, wired.Reachable w → ∀ d pre post,
    w.polled.session.log = pre ++ .shutdown d.other :: post →
      sentTo d.other pre = (w.socket d).arrived := by
  intro hall
  have hr : (wired.run cutStream Wired.initial).isSome = true := by decide
  obtain ⟨w,hw⟩ := Option.isSome_iff_exists.mp hr
  have hfacts : (wired.run cutStream Wired.initial).map
      (fun w => (decide (.shutdown .server ∈ w.polled.session.log),
        sentTo .server w.polled.session.log,(w.socket .client).arrived)) =
      some (true,[1],[1,2]) := by decide
  rw [hw] at hfacts
  obtain ⟨hmem,hsent,harrived⟩ : .shutdown .server ∈ w.polled.session.log ∧
      sentTo .server w.polled.session.log = [1] ∧ (w.socket .client).arrived = [1,2] := by
    simpa using hfacts
  obtain ⟨pre,post,hlog⟩ := List.append_of_mem hmem
  have hpre := hall w (.of_run (.init rfl) hw) .client pre post hlog
  rw [Side.other_client,harrived] at hpre
  rw [hlog,sentTo_append,hpre] at hsent
  simp at hsent

end NetLab.Accelerator
