import NetLab.Accelerator.Stream
import NetLab.Accelerator.Forwarding

/-! Whether the main loop gets anywhere with an event that level-triggered polling reports. The
interest in `EPOLLRDHUP` is never given up, so the end of a stream is reported again and again. -/
namespace NetLab.Accelerator

open Stage

/-- A socket that is reported readable has bytes or the end of its stream. -/
def RecvResult.ready : RecvResult → Bool
  | .data _ | .fin => true
  | _ => false

/-- A socket that is reported writable takes at least one byte. -/
def SendResult.ready : SendResult → Bool
  | .sent n => 0 < n
  | _ => false

/-- Neither call that a reported readiness leads to is in vain. -/
def Answers.Ready (ans : Answers) (events : Events) : Prop :=
  (events.epollin = true → ans.recv.ready = true) ∧ (events.epollout = true → ans.send.ready = true)

instance (ans : Answers) (events : Events) : Decidable (ans.Ready events) :=
  inferInstanceAs (Decidable (_ ∧ _))

/-- The session after the event. -/
def Session.after (s : Session) (e : Event) : Session := s.handle e.side e.events e.answers

/-- The calls that handling the event makes. -/
def Session.calls (s : Session) (e : Event) : List Call :=
  (processEvent e.side e.events e.answers s.conn).calls

/-- What handling an event can achieve. -/
inductive Progress (s : Session) (e : Event) : Prop
  | received (d : Side) (h : receivedFrom d (s.calls e) ≠ [])
  | sent (d : Side) (h : sentTo d (s.calls e) ≠ [])
  | ended (d : Side) (hopen : s.conn.readOpen d = true) (hclosed : (s.after e).conn.readOpen d = false)
  | passedOn (d : Side) (h : .shutdown d ∈ s.calls e)
  | interest (d : Side) (h : registered (s.after e).log d ≠ registered s.log d)
  | destroyed (h : (s.after e).live = false)

/-- The event says nothing but that a peer has ended its stream. That has been noted before, and
either bytes of the stream are still to be sent or its end has been passed on already. -/
def Spins (s : Session) (e : Event) : Prop :=
  e.events = { epollrdhup := true } ∧ s.conn.readOpen e.side = false ∧
    (bufferEmpty (s.conn.readBuf e.side) = true → s.conn.writeClosed e.side.other = true) ∧
    e.answers.modClient = true ∧ e.answers.modServer = true

instance (s : Session) (e : Event) : Decidable (Spins s e) :=
  inferInstanceAs (Decidable (_ ∧ _ ∧ _ ∧ _ ∧ _))

section Spinning

variable {s : Session} {e : Event}

/-- A live connection is not finished. -/
theorem live_unfinished {p : Polled} (h : polled.Reachable p) :
    p.session.live = true → connectionFinished p.session.conn = false := by
  refine h.invariant (I := fun p => p.session.live = true → connectionFinished p.session.conn = false)
    ?_ ?_
  · rintro ⟨s,batch⟩ ⟨⟨ans,hs⟩,-⟩ -
    obtain rfl := createConnection_eq hs
    rfl
  · intro p a q _ ih _ hq
    cases a with
    | wait batch =>
      obtain ⟨-,rfl⟩ := Polled.step_wait.mp hq
      exact ih
    | handle ans =>
      obtain ⟨e,rest,-,-,-,rfl⟩ := Polled.step_handle hq
      intro hlive
      simp only [Session.handle] at hlive ⊢
      split_ifs at hlive ⊢ with hcode hfin
      simpa using hfin

/-- An event that spins leaves the connection as it is and registers the same interest again. -/
theorem Spins.processEvent (h : Spins s e) :
    NetLab.Accelerator.processEvent e.side e.events e.answers s.conn = ⟨0,s.conn,
      [.epollCtl .mod .client (wantedEvents s.conn .client) true,
       .epollCtl .mod .server (wantedEvents s.conn .server) true]⟩ := by
  obtain ⟨hevents,hopen,hpassed,hc,hs⟩ := h
  have hclose := Connection.closeRead_eq_self hopen
  have hshutdown : shutdownStage e.side s.conn = ⟨0,s.conn,[]⟩ := by
    unfold shutdownStage
    rw [if_neg]
    simpa [hopen] using hpassed
  simp [NetLab.Accelerator.processEvent,hevents,receiveStage,flushStage,hangupStage,Stage.andThen,
    hclose,hshutdown,updateConnectionEvents,epollModify,hc,hs]

/-- An event that spins achieves nothing. -/
theorem Spins.no_progress {p : Polled} (h : polled.Reachable p) (hlive : p.session.live = true)
    {e : Event} (hspins : Spins p.session e) : ¬ Progress p.session e := by
  have hevent := hspins.processEvent
  have hcalls : p.session.calls e = [.epollCtl .mod .client (wantedEvents p.session.conn .client) true,
      .epollCtl .mod .server (wantedEvents p.session.conn .server) true] :=
    congrArg Outcome.calls hevent
  have hafter : p.session.after e = ⟨p.session.conn,true,p.session.log ++ p.session.calls e⟩ := by
    rw [Session.after,Session.handle,hcalls,hevent]
    simp [live_unfinished h hlive]
  intro hprogress
  cases hprogress with
  | received d hd =>
    rw [hcalls] at hd
    exact hd rfl
  | sent d hd =>
    rw [hcalls] at hd
    exact hd rfl
  | ended d hopen hclosed =>
    rw [hafter] at hclosed
    rw [hopen] at hclosed
    contradiction
  | passedOn d hd =>
    rw [hcalls] at hd
    simp at hd
  | interest d hd =>
    have harmed := (polled_inv h).armed hlive
    refine hd ?_
    rw [hafter,hcalls,harmed]
    cases d <;> simp [registered,Call.rearm]
  | destroyed hd =>
    rw [hafter] at hd
    contradiction

end Spinning

section Moving

variable {d : Side} {events : Events} {ans : Answers} {conn : Connection}

/-- An event that reports its endpoint writable sends what is pending for it, unless it fails. -/
theorem processEvent_sends (hout : events.epollout = true)
    (hpending : bufferEmpty (conn.readBuf d.other) = false)
    (hcode : 0 ≤ (processEvent d events ans conn).code) :
    .send d (conn.readBuf d.other).bytes ans.send ∈ (processEvent d events ans conn).calls := by
  have hreceive : Triple (fun c l => c = conn ∧ l = []) (receiveStage d events ans.recv)
      (fun _ c _ => c.readBuf d.other = conn.readBuf d.other) := by
    rintro c l ⟨rfl,rfl⟩
    unfold receiveStage
    split_ifs
    · dsimp only
      split_ifs <;> simp [Connection.readBuf_setReadBuf_of_ne _ _ _ _ d.other_ne]
    · rfl
  have hflush : Triple (fun c _ => c.readBuf d.other = conn.readBuf d.other)
      (flushStage d events ans.send)
      (fun _ _ l => .send d (conn.readBuf d.other).bytes ans.send ∈ l) := by
    intro c l hc
    simp [flushStage,hout,flushBuffer_calls,hc,hpending]
  have hall : Triple (fun c l => c = conn ∧ l = []) (processEvent d events ans)
      (fun code _ l => 0 ≤ code → .send d (conn.readBuf d.other).bytes ans.send ∈ l) :=
    hreceive.seq (fun _ _ _ hc _ hpos => absurd hc (not_lt.mpr hpos))
      (hflush.seq (fun _ _ _ _ h _ => h)
        ((Keeps.mem _ _).conseq (fun _ _ h => h) (fun _ _ _ h _ => h)))
  simpa using hall conn [] ⟨rfl,rfl⟩ hcode

theorem sentTo_ne_nil {calls : List Call} {bytes : List Byte} {n : ℕ} (hbytes : bytes ≠ [])
    (hn : 0 < n) (h : .send d bytes (.sent n) ∈ calls) : sentTo d calls ≠ [] := by
  intro hnil
  have hnone := List.flatMap_eq_nil_iff.mp hnil _ h
  simp only [Call.sent,if_true,List.take_eq_nil_iff] at hnone
  rcases hnone with hzero | hempty
  · exact hn.ne' hzero
  · exact hbytes hempty

/-- The end of a drained stream that has not been passed on is passed on by the next event. -/
theorem processEvent_passes (hevents : events = { epollrdhup := true })
    (hopen : conn.readOpen d = false) (hempty : bufferEmpty (conn.readBuf d) = true)
    (hw : conn.writeClosed d.other = false) :
    .shutdown d.other ∈ (processEvent d events ans conn).calls := by
  have hshutdown : shutdownStage d conn = ⟨0,conn.closeWrite d.other,[.shutdown d.other]⟩ := by
    simp [shutdownStage,hopen,hempty,hw]
  have hclose := Connection.closeRead_eq_self hopen
  simp [processEvent,hevents,receiveStage,flushStage,hangupStage,Stage.andThen,hclose,hshutdown]

end Moving

/-- Whether handling an event achieves something: in every reachable state of a live connection
each event that polling can report for the registered interest does, unless it spins. -/
theorem progress_iff {p : Polled} (h : polled.Reachable p) (hlive : p.session.live = true)
    {e : Event} (hrep : Reportable (registered p.session.log e.side) e.events)
    (hsome : e.events ≠ {}) (hfit : e.answers.Fit e.side p.session.conn)
    (hready : e.answers.Ready e.events) : Progress p.session e ↔ ¬ Spins p.session e := by
  refine ⟨fun hprogress hspins => hspins.no_progress h hlive hprogress,fun hspins => ?_⟩
  have hinv := polled_inv h
  rw [hinv.armed hlive] at hrep
  by_cases hcode : (processEvent e.side e.events e.answers p.session.conn).code < 0
  · refine .destroyed ?_
    rw [Session.after,Session.handle,if_pos hcode]
  have hcode' := not_lt.mp hcode
  obtain ⟨hnofail,hh⟩ := processEvent_handled hinv.relaying.1.wf hfit hcode'
  have hended : ∀ hopen : p.session.conn.readOpen e.side = true,
      ReceivesEnd e.side e.events e.answers p.session.conn ∨ e.events.epollrdhup = true →
      Progress p.session e := by
    intro hopen hend
    refine .ended e.side hopen ?_
    rw [Session.after,Session.handle_conn]
    exact hh.readOpen_iff.mpr (.inr hend)
  by_cases hin : e.events.epollin = true
  · obtain ⟨hopen,hpending⟩ := (wantedEvents_epollin hinv.relaying.1 e.side).mp (hrep.1 hin)
    have hroom := (receiveRoom_pos_iff (hinv.relaying.1.wf e.side)).mpr hpending
    cases hrecv : e.answers.recv with
    | data bytes =>
      have hbytes : 0 < bytes.length := by
        have hdata := hfit.1
        rw [hrecv] at hdata
        exact hdata.1
      refine .received e.side ?_
      rw [Session.calls,(processEvent_self _ _ _ _).1,if_pos ⟨hin,hroom⟩,hrecv]
      exact List.ne_nil_of_length_pos hbytes
    | fin => exact hended hopen (.inl ⟨hin,hroom,hrecv⟩)
    | wouldBlock | interrupted | error =>
      have hnever := hready.1 hin
      rw [hrecv] at hnever
      contradiction
  by_cases hout : e.events.epollout = true
  · have hpending := (wantedEvents_epollout hinv.relaying.1 e.side).mp (hrep.2.1 hout)
    cases hsend : e.answers.send with
    | sent n =>
      have hn := hready.2 hout
      rw [hsend] at hn
      have hempty : bufferEmpty (p.session.conn.readBuf e.side.other) = false := by
        rw [← Bool.not_eq_true,bufferEmpty_eq_true_iff (hinv.relaying.1.wf _)]
        exact hpending.ne'
      have hmem := processEvent_sends hout hempty hcode'
      rw [hsend] at hmem
      refine .sent e.side (sentTo_ne_nil ?_ (by simpa [SendResult.ready] using hn) hmem)
      apply List.ne_nil_of_length_pos
      rwa [IoBuffer.bytes_length]
    | wouldBlock | interrupted | error =>
      have hnever := hready.2 hout
      rw [hsend] at hnever
      contradiction
  -- neither readable nor writable, and no hang-up: all that is left is the end of the stream
  have hevents : e.events = { epollrdhup := true } := by
    have hup : ¬ ReportsHangup e.events := fun hup => hnofail (.inr (.inl hup))
    obtain ⟨side,⟨epollin,epollout,epollrdhup,epollerr,epollhup⟩,ans⟩ := e
    simp only [ReportsHangup,not_or,Bool.not_eq_true] at hup hin hout
    obtain ⟨rfl,rfl⟩ := hup
    subst hin hout
    cases epollrdhup with
    | true => rfl
    | false => exact absurd rfl hsome
  by_cases hopen : p.session.conn.readOpen e.side = true
  · refine hended hopen (.inr ?_)
    rw [hevents]
  have hclosed : p.session.conn.readOpen e.side = false := by simpa using hopen
  have hmods : ¬ UpdateFails e.answers := fun hfails => hnofail (.inr (.inr hfails))
  simp only [UpdateFails,not_or,Bool.not_eq_false] at hmods
  have hdue : ¬ (bufferEmpty (p.session.conn.readBuf e.side) = true →
      p.session.conn.writeClosed e.side.other = true) :=
    fun hpassed => hspins ⟨hevents,hclosed,hpassed,hmods⟩
  push Not at hdue
  exact .passedOn e.side.other
    (processEvent_passes hevents hclosed hdue.1 (by simpa using hdue.2))

/-- The first event of a connection that brings a byte. -/
theorem first_byte_progresses : Progress Session.created
    ⟨.client,{ epollin := true },⟨.data [7],.wouldBlock,true,true⟩⟩ :=
  (progress_iff (p := ⟨Session.created,[]⟩) (.init createdSession_init) rfl (by decide) (by decide)
    (by decide) (by decide)).mpr (by decide)

/-- The client ends its stream, and one `recv` takes note of it. -/
def clientEnds : List WireLabel := [.finish .client,
  .wait [(.client,{ epollin := true, epollrdhup := true })],.handle ⟨.fin,.wouldBlock,true,true⟩]

/-- The event that is then reported for as long as the server does not end its stream. -/
def endAgain : Event := ⟨.client,{ epollrdhup := true },⟨.wouldBlock,.wouldBlock,true,true⟩⟩

theorem clientEnds_run : ∃ w, wired.Reachable w ∧ w.polled.session.live = true ∧
    Reports w .client endAgain.events ∧ endAgain.answers.Orderly (w.socket .client) ∧
    endAgain.answers.Fit .client w.polled.session.conn ∧ Spins w.polled.session endAgain := by
  have hr : (wired.run clientEnds Wired.initial).isSome = true := by decide
  obtain ⟨w,hw⟩ := Option.isSome_iff_exists.mp hr
  have hfacts : (wired.run clientEnds Wired.initial).map
      (fun w => decide (w.polled.session.live = true ∧ Reports w .client endAgain.events ∧
        endAgain.answers.Orderly (w.socket .client) ∧
        endAgain.answers.Fit .client w.polled.session.conn ∧ Spins w.polled.session endAgain)) =
      some true := by decide
  rw [hw] at hfacts
  exact ⟨w,.of_run (.init rfl) hw,by simpa using hfacts⟩

/-- The main loop spins on the end of a stream that it has long passed on. -/
theorem endAgain_spins : ¬ ∀ w, wired.Reachable w → w.polled.session.live = true →
    ∀ e : Event, Reports w e.side e.events → e.answers.Orderly (w.socket e.side) →
      e.answers.Fit e.side w.polled.session.conn → e.answers.Ready e.events →
      Progress w.polled.session e := by
  intro hall
  obtain ⟨w,hw,hlive,hrep,hord,hfit,hspins⟩ := clientEnds_run
  refine hspins.no_progress (wired_polled hw) hlive
    (hall w hw hlive endAgain hrep hord hfit ⟨?_,?_⟩)
  · intro h
    contradiction
  · intro h
    contradiction

end NetLab.Accelerator
