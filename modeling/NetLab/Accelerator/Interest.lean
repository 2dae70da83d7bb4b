import NetLab.Accelerator.Polled

/-! Whole-run properties of one polled connection: the registered interest always agrees with
the buffers, and nothing follows a forwarded end of stream. -/
namespace NetLab.Accelerator

open Stage

/-- The stages after the receive take no bytes from any side and touch the flag of a side only
to clear it on a reported `EPOLLRDHUP`. -/
theorem tail_keeps (d e : Side) (events : Events) (ans : Answers) (K : Bool → List Byte → Prop)
    (hK : e = d → events.epollrdhup = true → events.epollhup = false → ∀ b r, K b r → K false r) :
    Keeps (fun conn log => K (conn.readOpen e) (receivedFrom e log))
      ((flushStage d events ans.send).andThen ((hangupStage d events).andThen
        ((shutdownStage d).andThen (updateConnectionEvents ans)))) := by
  have hflush : Keeps (fun conn log => K (conn.readOpen e) (receivedFrom e log))
      (flushStage d events ans.send) := by
    intro conn log h
    simp only [flushStage]
    by_cases ho : events.epollout = true
    · rw [if_pos ho]
      simpa [receivedFrom_flush] using h
    · rw [if_neg ho]
      simpa using h
  have hhangup : Keeps (fun conn log => K (conn.readOpen e) (receivedFrom e log))
      (hangupStage d events) := by
    intro conn log h
    simp only [hangupStage]
    split_ifs with hup hr
    · simpa using h
    · simp only [Bool.or_eq_true,not_or,Bool.not_eq_true] at hup
      rcases d.eq_or_eq_other e with rfl | rfl
      · simpa using hK rfl hr hup.2 _ _ h
      · simpa [Connection.readOpen_closeRead_of_ne _ _ _ d.other_ne] using h
    · simpa using h
  have hshutdown : Keeps (fun conn log => K (conn.readOpen e) (receivedFrom e log))
      (shutdownStage d) := by
    intro conn log h
    simp only [shutdownStage]
    split_ifs
    · simpa [receivedFrom,Call.received] using h
    · simpa using h
  have hmod : ∀ (fd : Side) (ev : Events) (ok : Bool),
      Keeps (fun conn log => K (conn.readOpen e) (receivedFrom e log)) (epollModify fd ev ok) := by
    intro fd ev ok conn log h
    simpa [epollModify,receivedFrom,Call.received] using h
  exact hflush.andThen (hhangup.andThen (hshutdown.andThen
    (fun conn log h => (hmod _ _ _).andThen (hmod _ _ _) conn log h)))

/-- What an event on side `d` cannot do to the other side: close it for reading or receive from
it. -/
theorem processEvent_other (d : Side) (events : Events) (ans : Answers) (conn : Connection)
    (log : List Call) :
    (processEvent d events ans conn).state.readOpen d.other = conn.readOpen d.other ∧
      receivedFrom d.other (log ++ (processEvent d events ans conn).calls) =
        receivedFrom d.other log := by
  have htail := tail_keeps d d.other events ans
    (fun b r => b = conn.readOpen d.other ∧ r = receivedFrom d.other log)
    (fun h => absurd h d.other_ne)
  have hreceive : Triple (fun c l => c = conn ∧ l = log) (receiveStage d events ans.recv)
      (fun _ c l => c.readOpen d.other = conn.readOpen d.other ∧
        receivedFrom d.other l = receivedFrom d.other log) := by
    rintro c l ⟨rfl,rfl⟩
    have hrecv := receivedFrom_receive_of_ne d.ne_other (c.readBuf d) ans.recv
    simp only [receiveStage]
    split_ifs
    · simp [hrecv]
    · simp [hrecv,Connection.readOpen_closeRead_of_ne _ _ _ d.other_ne]
    · simp [hrecv]
    · simp
  exact hreceive.seq (fun _ _ _ _ h => h) htail conn log ⟨rfl,rfl⟩

/-- The bytes an answer of `recv` carries. -/
def RecvResult.bytes : RecvResult → List Byte
  | .data bytes => bytes
  | _ => []

/-- What an event on side `d` can do to that side: take the bytes of its one `recv`, and close it
for reading on the end of the stream or on `EPOLLRDHUP`. -/
theorem processEvent_self (d : Side) (events : Events) (ans : Answers) (conn : Connection) :
    receivedFrom d (processEvent d events ans conn).calls =
        (if events.epollin = true ∧ 0 < receiveRoom (conn.readBuf d) then ans.recv.bytes else []) ∧
      ((processEvent d events ans conn).state.readOpen d = false →
        conn.readOpen d = false ∨ (events.epollin = true ∧ ans.recv = .fin) ∨
          (events.epollrdhup = true ∧ events.epollhup = false)) := by
  obtain ⟨R,hR⟩ : ∃ R, R = (if events.epollin = true ∧ 0 < receiveRoom (conn.readBuf d) then
    ans.recv.bytes else []) := ⟨_,rfl⟩
  rw [← hR]
  have htail := tail_keeps d d events ans (fun b r => r = R ∧ (b = false →
      conn.readOpen d = false ∨ (events.epollin = true ∧ ans.recv = .fin) ∨
        (events.epollrdhup = true ∧ events.epollhup = false)))
    (fun _ hr hup b r h => ⟨h.1,fun _ => Or.inr (Or.inr ⟨hr,hup⟩)⟩)
  have hreceive : Triple (fun c l => c = conn ∧ l = []) (receiveStage d events ans.recv)
      (fun _ c l => receivedFrom d l = R ∧ (c.readOpen d = false →
        conn.readOpen d = false ∨ (events.epollin = true ∧ ans.recv = .fin) ∨
          (events.epollrdhup = true ∧ events.epollhup = false))) := by
    rintro c l ⟨rfl,rfl⟩
    have hrecv : events.epollin = true →
        receivedFrom d (receiveIntoBuffer d (c.readBuf d) ans.recv).2.2 = R := by
      intro hin
      rw [hR,receiveIntoBuffer_calls]
      by_cases hz : receiveRoom (c.readBuf d) = 0
      · simp [hz]
      · have hp : 0 < receiveRoom (c.readBuf d) := Nat.pos_of_ne_zero hz
        cases ans.recv <;> simp [hz,hp,hin,receivedFrom,Call.received,RecvResult.bytes]
    have hend := (receiveIntoBuffer_code d (c.readBuf d) ans.recv).2
    simp only [receiveStage]
    split_ifs with hin hneg htwo
    · exact ⟨by simpa using hrecv hin,fun h => Or.inl (by simpa using h)⟩
    · exact ⟨by simpa using hrecv hin,fun _ => Or.inr (Or.inl ⟨hin,(hend.mp htwo).2⟩)⟩
    · exact ⟨by simpa using hrecv hin,fun h => Or.inl (by simpa using h)⟩
    · exact ⟨by simp [hR,hin],fun h => Or.inl h⟩
  exact hreceive.seq (fun _ _ _ _ h => h) htail conn [] ⟨rfl,rfl⟩

/-- An event on one side can only make room in the buffer filled from the other. -/
theorem processEvent_other_room (d : Side) (events : Events) (ans : Answers) {conn : Connection}
    {log : List Call} (h : Faithful conn log) (ha : ans.Fit d conn)
    (hroom : 0 < receiveRoom (conn.readBuf d.other)) :
    0 < receiveRoom ((processEvent d events ans conn).state.readBuf d.other) := by
  have hf := processEvent_faithful d events ans conn log ⟨h,ha⟩
  have ho := (processEvent_other d events ans conn log).2
  rw [receiveRoom_pos_iff (h.wf _)] at hroom
  rw [receiveRoom_pos_iff (hf.wf _)]
  have hold := congrArg List.length (h.stream d.other)
  have hnew := congrArg List.length (hf.stream d.other)
  rw [ho] at hnew
  simp only [sentTo_append,List.length_append,IoBuffer.bytes_length] at hold hnew
  omega

/-- The state between two entries of the main loop. -/
structure PolledInv (p : Polled) : Prop where
  relaying : Relaying p.session.conn p.session.log
  armed : p.session.live = true → ∀ d, registered p.session.log d = wantedEvents p.session.conn d
  nodup : (p.batch.map Prod.fst).Nodup
  readable : ∀ e ∈ p.batch, e.2.epollin = true →
    p.session.conn.readOpen e.1 = true ∧ 0 < receiveRoom (p.session.conn.readBuf e.1)

theorem created_relaying : Relaying Session.created.conn Session.created.log := by
  refine ⟨created_faithful,fun d => ⟨?_,?_⟩⟩
  · cases d <;> rfl
  · cases d <;> simp [Session.created,Connection.initial,Connection.writeClosed]

theorem created_armed (d : Side) :
    registered Session.created.log d = wantedEvents Session.created.conn d := by
  cases d <;> decide

/-- The log of a handled event, before the entry that a destruction adds. -/
theorem Session.handle_log (s : Session) (d : Side) (events : Events) (ans : Answers) :
    ∃ calls, (s.handle d events ans).log = s.log ++ (processEvent d events ans s.conn).calls ++ calls ∧
      (calls = [] ∨ calls = [.destroy]) := by
  simp only [Session.handle]
  split_ifs
  · exact ⟨[.destroy],rfl,Or.inr rfl⟩
  · exact ⟨[.destroy],rfl,Or.inr rfl⟩
  · exact ⟨[],(List.append_nil _).symm,Or.inl rfl⟩

@[simp] theorem Session.handle_conn (s : Session) (d : Side) (events : Events) (ans : Answers) :
    (s.handle d events ans).conn = (processEvent d events ans s.conn).state := by
  simp only [Session.handle]
  split_ifs <;> rfl

/-- A connection that survives an event has handled it without failure. -/
theorem Session.handle_live {s : Session} {d : Side} {events : Events} {ans : Answers}
    (h : (s.handle d events ans).live = true) :
    0 ≤ (processEvent d events ans s.conn).code ∧
      (s.handle d events ans).log = s.log ++ (processEvent d events ans s.conn).calls := by
  simp only [Session.handle] at h ⊢
  split_ifs at h ⊢ with hc hf
  exact ⟨not_lt.mp hc,rfl⟩

theorem handle_relaying {s : Session} (h : Relaying s.conn s.log) {d : Side} {events : Events}
    {ans : Answers} (hin : events.epollin = true → s.conn.readOpen d = true)
    (ha : ans.Fit d s.conn) :
    Relaying (s.handle d events ans).conn (s.handle d events ans).log := by
  have hp := processEvent_relaying d events ans s.conn s.log ⟨⟨h,hin⟩,ha⟩
  obtain ⟨calls,hlog,hcalls⟩ := s.handle_log d events ans
  rw [Session.handle_conn,hlog]
  rcases hcalls with rfl | rfl
  · simpa using hp
  · refine ⟨hp.1.append ?_ ?_ ?_,fun e => (hp.2 e).frame ?_ rfl id⟩
    · simp [receivedFrom,Call.received]
    · simp [sentTo,Call.sent]
    · simp [RecvInBounds]
    · simp [moves,Call.move]

/-- Registered `EPOLLIN` means an open side and room in its buffer. -/
theorem wantedEvents_epollin {conn : Connection} {log : List Call} (h : Faithful conn log) (d : Side) :
    (wantedEvents conn d).epollin = true ↔
      conn.readOpen d = true ∧ bufferPending (conn.readBuf d) < forwardBufferSize := by
  rw [← readable_interest_iff (h.wf d)]
  simp [wantedEvents]

theorem wantedEvents_epollout {conn : Connection} {log : List Call} (h : Faithful conn log) (d : Side) :
    (wantedEvents conn d).epollout = true ↔ 0 < bufferPending (conn.readBuf d.other) := by
  have hs := (h.wf d.other).start_le
  simp only [wantedEvents,bufferEmpty,bufferPending,Bool.not_eq_true',beq_eq_false_iff_ne]
  omega

theorem PolledInv.handle {s : Session} {e : Side × Events} {rest : List (Side × Events)}
    (h : PolledInv ⟨s,e::rest⟩) {ans : Answers} (ha : ans.Fit e.1 s.conn) :
    PolledInv ⟨s.handle e.1 e.2 ans,rest⟩ := by
  have hin : e.2.epollin = true → s.conn.readOpen e.1 = true :=
    fun hi => (h.readable e List.mem_cons_self hi).1
  obtain ⟨hnotin,hnodup⟩ := List.nodup_cons.mp h.nodup
  refine ⟨handle_relaying h.relaying hin ha,?_,hnodup,?_⟩
  · intro hlive d
    obtain ⟨hcode,hlog⟩ := Session.handle_live hlive
    have harmed := processEvent_armed e.1 e.2 ans s.conn s.log trivial hcode d
    rw [hlog,Session.handle_conn]
    exact harmed.1
  · -- the entries still to come are for the other endpoint, which this event cannot close or fill
    intro e' he' hi
    have hne : e'.1 ≠ e.1 := by
      intro heq
      exact hnotin (heq ▸ List.mem_map_of_mem (f := Prod.fst) he')
    obtain ⟨ho,hr⟩ := h.readable e' (List.mem_cons_of_mem _ he') hi
    rcases e.1.eq_or_eq_other e'.1 with heq | heq
    · exact absurd heq hne
    · rw [heq] at ho hr ⊢
      rw [Session.handle_conn]
      have hk := (processEvent_other e.1 e.2 ans s.conn s.log).1
      exact ⟨hk.trans ho,processEvent_other_room e.1 e.2 ans h.relaying.1 ha hr⟩

theorem polled_inv {p : Polled} (h : polled.Reachable p) : PolledInv p := by
  refine h.invariant ?_ ?_
  · rintro ⟨s,batch⟩ ⟨⟨ans,hs⟩,rfl⟩
    obtain rfl := createConnection_eq hs
    exact ⟨created_relaying,fun _ d => created_armed d,List.nodup_nil,by simp⟩
  · rintro p a q - hp - hq
    cases a with
    | wait batch =>
      obtain ⟨⟨hlive,-,hnodup,hrep⟩,rfl⟩ := Polled.step_wait.mp hq
      refine ⟨hp.relaying,hp.armed,hnodup,fun e he hi => ?_⟩
      have hreg := (hrep e he).1 hi
      rw [hp.armed hlive,wantedEvents_epollin hp.relaying.1] at hreg
      exact ⟨hreg.1,(receiveRoom_pos_iff (hp.relaying.1.wf _)).mpr hreg.2⟩
    | handle ans =>
      obtain ⟨e,rest,hb,-,hfit,rfl⟩ := Polled.step_handle hq
      obtain ⟨s,batch⟩ := p
      obtain rfl : batch = e::rest := hb
      exact hp.handle hfit

/-- The interest registered with the kernel agrees with the connection in every state of a live
connection, each `EPOLLIN` still to be handled finds room for at least one byte, and an event
that is handled successfully re-arms both endpoints. -/
theorem interest_agrees {p : Polled} (h : polled.Reachable p) (hlive : p.session.live = true) :
    (∀ d, ((registered p.session.log d).epollin = true ↔
        p.session.conn.readOpen d = true ∧
          bufferPending (p.session.conn.readBuf d) < forwardBufferSize) ∧
      ((registered p.session.log d).epollout = true ↔
        0 < bufferPending (p.session.conn.readBuf d.other))) ∧
    (∀ e ∈ p.batch, e.2.epollin = true → 0 < receiveRoom (p.session.conn.readBuf e.1)) ∧
    (∀ ans q, polled.step p (.handle ans) = some q → q.session.live = true →
      ∃ calls, q.session.log = p.session.log ++ calls ∧
        ∀ d, .epollCtl .mod d (wantedEvents q.session.conn d) true ∈ calls) := by
  have hp := polled_inv h
  refine ⟨fun d => ?_,fun e he hi => (hp.readable e he hi).2,?_⟩
  · rw [hp.armed hlive]
    exact ⟨wantedEvents_epollin hp.relaying.1 d,wantedEvents_epollout hp.relaying.1 d⟩
  · intro ans q hq hq'
    obtain ⟨e,rest,-,-,-,rfl⟩ := Polled.step_handle hq
    obtain ⟨hcode,hlog⟩ := Session.handle_live hq'
    refine ⟨_,hlog,fun d => ?_⟩
    have harmed := processEvent_armed e.1 e.2 ans p.session.conn [] trivial hcode d
    simpa using harmed.2

/-- A batch that reports both endpoints of a fresh connection. -/
def firstBatch : List (Side × Events) :=
  [(.client,{ epollin := true }),(.server,{ epollin := true })]

theorem interest_agrees_first_batch :
    (registered Session.created.log .client).epollin = true ∧
      ∀ e ∈ firstBatch, e.2.epollin = true → 0 < receiveRoom (Session.created.conn.readBuf e.1) := by
  have hinit : polled.Reachable ⟨Session.created,[]⟩ :=
    .init ⟨⟨⟨true,true,true,true,true,true⟩,rfl⟩,rfl⟩
  have hwait : polled.step ⟨Session.created,[]⟩ (.wait firstBatch) =
      some ⟨Session.created,firstBatch⟩ := by
    change Polled.step ⟨Session.created,[]⟩ (.wait firstBatch) = _
    exact Polled.step_wait.mpr ⟨by decide,rfl⟩
  have ha := interest_agrees (.step hinit trivial hwait) rfl
  exact ⟨(ha.1 .client).1.mpr ⟨rfl,by decide⟩,ha.2.1⟩

/-- Once an end has been passed on, its source is closed and its buffer is drained. -/
theorem Piped.ended {d : Side} {conn : Connection} {log : List Call} (hf : Faithful conn log)
    (h : Piped d conn log) (hw : conn.writeClosed d.other = true) :
    conn.readOpen d = false ∧ bufferEmpty (conn.readBuf d) = true := by
  refine ⟨h.closed hw,?_⟩
  rw [(hf.wf d).bufferEmpty_iff,← hf.held_eq]
  exact h.sound.drained hw

/-- A `shutdown` in the log splits it: everything received before has been sent, and nothing in
this direction happens afterwards. -/
theorem Piped.after_shutdown {d : Side} {conn : Connection} {pre post : List Call}
    (h : Piped d conn (pre ++ .shutdown d.other :: post)) :
    sentTo d.other pre = receivedFrom d pre ∧ moves d post = [] ∧ conn.writeClosed d.other = true := by
  have hsplit : moves d (pre ++ .shutdown d.other :: post) =
      moves d pre ++ .finish :: moves d post := by
    simp [moves,Call.move]
  have hrun := h.run
  rw [hsplit] at hrun
  obtain ⟨hpost,hfin,hdrained⟩ := Pipe.run_finish hrun
  obtain ⟨hrecv,hsent⟩ := streams_eq_moves d pre
  rw [← hrecv,← hsent] at hdrained
  exact ⟨hdrained,hpost,hfin⟩

/-- A `shutdown` of one side means that the other is closed for reading and drained. -/
theorem PolledInv.ended {p : Polled} (h : PolledInv p) {d : Side}
    (hmem : .shutdown d.other ∈ p.session.log) :
    p.session.conn.readOpen d = false ∧ bufferEmpty (p.session.conn.readBuf d) = true := by
  obtain ⟨hf,hp⟩ := h.relaying
  obtain ⟨pre,post,hlog⟩ := List.append_of_mem hmem
  have hd := hp d
  rw [hlog] at hd
  exact (hp d).ended hf hd.after_shutdown.2.2

/-- Nothing follows a forwarded end of stream: `shutdown` is called at most once for each
direction, on a drained buffer whose source is closed, and from then on the buffer stays empty
and neither `recv` from the source nor `send` to the target is called again. -/
theorem nothing_follows_shutdown {p : Polled} (h : polled.Reachable p) (d : Side) :
    p.session.log.count (.shutdown d.other) ≤ 1 ∧
    (∀ pre post, p.session.log = pre ++ .shutdown d.other :: post →
      sentTo d.other pre = receivedFrom d pre ∧
      ∀ c ∈ post, c ≠ .shutdown d.other ∧ (∀ offset length a, c ≠ .recv d offset length a) ∧
        ∀ bytes a, c ≠ .send d.other bytes a) ∧
    (.shutdown d.other ∈ p.session.log →
      p.session.conn.readOpen d = false ∧ bufferEmpty (p.session.conn.readBuf d) = true) ∧
    (p.session.conn.writeClosed d.other = true →
      p.session.conn.readOpen d = false ∧ bufferEmpty (p.session.conn.readBuf d) = true) := by
  obtain ⟨hf,hp⟩ := (polled_inv h).relaying
  have hquiet : ∀ pre post, p.session.log = pre ++ .shutdown d.other :: post →
      ∀ c ∈ post, c ≠ .shutdown d.other ∧ (∀ offset length a, c ≠ .recv d offset length a) ∧
        ∀ bytes a, c ≠ .send d.other bytes a := by
    intro pre post hlog c hc
    have hd := hp d
    rw [hlog] at hd
    have hnone : Call.move d c = none := List.filterMap_eq_nil_iff.mp hd.after_shutdown.2.1 c hc
    refine ⟨?_,fun offset length a he => ?_,fun bytes a he => ?_⟩ <;>
      first | (intro he; simp [he,Call.move] at hnone) | simp [he,Call.move] at hnone
  refine ⟨?_,fun pre post hlog => ⟨?_,hquiet pre post hlog⟩,(polled_inv h).ended,(hp d).ended hf⟩
  · by_cases hmem : .shutdown d.other ∈ p.session.log
    · obtain ⟨pre,post,hlog,hpre⟩ := List.eq_append_cons_of_mem hmem
      have hpost : .shutdown d.other ∉ post := fun hin => (hquiet pre post hlog _ hin).1 rfl
      rw [hlog,List.count_append,List.count_cons_self,List.count_eq_zero_of_not_mem hpre,
        List.count_eq_zero_of_not_mem hpost]
    · rw [List.count_eq_zero_of_not_mem hmem]
      exact Nat.zero_le 1
  · have hd := hp d
    rw [hlog] at hd
    exact hd.after_shutdown.1

/-- The client ends its stream after one byte, which is sent on before the end is. -/
def forwardedEndLabels : List PollLabel :=
  [.wait [(.client,{ epollin := true })],.handle ⟨.data [7],.wouldBlock,true,true⟩,
   .wait [(.client,{ epollin := true, epollrdhup := true }),(.server,{ epollout := true })],
   .handle ⟨.fin,.wouldBlock,true,true⟩,.handle ⟨.wouldBlock,.sent 1,true,true⟩,
   .wait [(.client,{ epollrdhup := true })],.handle ⟨.wouldBlock,.wouldBlock,true,true⟩]

theorem nothing_follows_shutdown_example :
    ∃ p, polled.run forwardedEndLabels ⟨Session.created,[]⟩ = some p ∧
      p.session.conn.serverWriteClosed = true ∧ p.session.conn.clientReadOpen = false ∧
      p.session.log.count (.shutdown .server) ≤ 1 := by
  have hinit : polled.Reachable ⟨Session.created,[]⟩ :=
    .init ⟨⟨⟨true,true,true,true,true,true⟩,rfl⟩,rfl⟩
  have hr : (polled.run forwardedEndLabels ⟨Session.created,[]⟩).isSome = true := by decide
  obtain ⟨p,hp⟩ := Option.isSome_iff_exists.mp hr
  have hclosed : (polled.run forwardedEndLabels ⟨Session.created,[]⟩).map
      (fun p => p.session.conn.serverWriteClosed) = some true := by decide
  rw [hp] at hclosed
  have hw : p.session.conn.serverWriteClosed = true := Option.some.inj hclosed
  have hn := nothing_follows_shutdown (Machine.Reachable.of_run hinit hp) .client
  exact ⟨p,hp,hw,(hn.2.2.2 hw).1,hn.1⟩

end NetLab.Accelerator
