import NetLab.Accelerator.Interest
import NetLab.Accelerator.Ending

/-! When the end of a stream is passed on. Each handler looks at the stream of its own endpoint
only, so the end of the other stream waits when its last bytes leave in this one. -/
namespace NetLab.Accelerator

open Stage

section Outcome

variable (d : Side) (events : Events) (ans : Answers) (conn : Connection)

/-- What both streams look like when the handler looks for an end to pass on. -/
structure Noted (s : Connection) : Prop where
  readOpen_iff : s.readOpen d = false ↔
    conn.readOpen d = false ∨ ReceivesEnd d events ans conn ∨ events.epollrdhup = true
  readOpen_other : s.readOpen d.other = conn.readOpen d.other
  inbound : bufferEmpty (s.readBuf d) = true ↔ InboundDrained d events ans conn
  outbound : bufferEmpty (s.readBuf d.other) = true ↔ OutboundDrained d events ans conn
  writeClosed_self : s.writeClosed d = conn.writeClosed d

/-- An event that has not failed has passed on the end of the stream of `d` if it was due. -/
structure Handled (s : Connection) : Prop extends Noted d events ans conn s where
  passed : s.readOpen d = false → bufferEmpty (s.readBuf d) = true → s.writeClosed d.other = true

end Outcome

section Exactness

variable {d : Side} {events : Events} {ans : Answers} {conn : Connection}

theorem receiveStage_writeClosed (s : Connection) (e : Side) :
    (receiveStage d events ans.recv s).state.writeClosed e = s.writeClosed e := by
  unfold receiveStage
  split_ifs <;> simp only
  split_ifs <;> simp

theorem flushStage_writeClosed (s : Connection) (e : Side) :
    (flushStage d events ans.send s).state.writeClosed e = s.writeClosed e := by
  unfold flushStage
  split_ifs <;> simp

theorem andThen_state {f g : Stage Connection Call} {K : Connection → Prop}
    (hf : ∀ s, K s → K (f s).state) (hg : ∀ s, K s → K (g s).state) (s : Connection) (h : K s) :
    K (f.andThen g s).state := by
  unfold Stage.andThen
  dsimp only
  split_ifs
  · exact hf s h
  · exact hg _ (hf s h)

theorem hangupStage_noted :
    Exact (fun s => Transferred d events ans conn s ∧ s.writeClosed d = conn.writeClosed d)
      (hangupStage d events) (ReportsHangup events) (Noted d events ans conn) := by
  rintro s ⟨hs,hw⟩
  by_cases hup : ReportsHangup events
  · have hstage : hangupStage d events s = ⟨-1,s,[]⟩ := by
      unfold ReportsHangup at hup
      simp [hangupStage,hup]
    rw [hstage]
    exact ⟨by simp [hup],fun h => absurd hup h⟩
  · have hno : (events.epollerr || events.epollhup) = false := by
      simpa [ReportsHangup] using hup
    by_cases hr : events.epollrdhup = true
    · have hstage : hangupStage d events s = ⟨0,s.closeRead d,[]⟩ := by simp [hangupStage,hno,hr]
      rw [hstage]
      refine ⟨by simp [hup],fun _ => ⟨by simp [hr],?_,?_,?_,?_⟩⟩
      · rw [s.readOpen_closeRead_of_ne d d.other d.other_ne]
        exact hs.readOpen_other
      · rw [s.readBuf_closeRead]
        exact hs.inbound
      · rw [s.readBuf_closeRead]
        exact hs.outbound
      · rw [s.writeClosed_closeRead]
        exact hw
    · have hstage : hangupStage d events s = ⟨0,s,[]⟩ := by simp [hangupStage,hno,hr]
      rw [hstage]
      refine ⟨by simp [hup],fun _ => ⟨?_,hs.readOpen_other,hs.inbound,hs.outbound,hw⟩⟩
      rw [hs.readOpen_iff]
      simp [hr]

/-- The end of the stream of `d` is passed on when it is due; the other stream is not looked at. -/
theorem shutdownStage_handled :
    Exact (Noted d events ans conn) (shutdownStage d) False (Handled d events ans conn) := by
  intro s hs
  by_cases hdue : s.readOpen d = false ∧ bufferEmpty (s.readBuf d) = true ∧
      s.writeClosed d.other = false
  · obtain ⟨hopen,hempty,hw⟩ := hdue
    have hstage : shutdownStage d s = ⟨0,s.closeWrite d.other,[.shutdown d.other]⟩ := by
      simp [shutdownStage,hopen,hempty,hw]
    rw [hstage]
    refine ⟨by simp,fun _ => ⟨⟨?_,?_,?_,?_,?_⟩,fun _ _ => s.writeClosed_closeWrite_self _⟩⟩
    · rw [s.readOpen_closeWrite]
      exact hs.readOpen_iff
    · rw [s.readOpen_closeWrite]
      exact hs.readOpen_other
    · rw [s.readBuf_closeWrite]
      exact hs.inbound
    · rw [s.readBuf_closeWrite]
      exact hs.outbound
    · rw [s.writeClosed_closeWrite_of_ne _ _ d.ne_other]
      exact hs.writeClosed_self
  · have hstage : shutdownStage d s = ⟨0,s,[]⟩ := by
      simp only [not_and,Bool.not_eq_false] at hdue
      unfold shutdownStage
      rw [if_neg]
      simp only [Bool.and_eq_true,Bool.not_eq_true',not_and,Bool.not_eq_false,and_imp]
      exact hdue
    rw [hstage]
    refine ⟨by simp,fun _ => ⟨hs,fun hopen hempty => ?_⟩⟩
    by_contra hw
    exact hdue ⟨hopen,hempty,by simpa using hw⟩

theorem updateConnectionEvents_state (ans : Answers) (s : Connection) :
    (updateConnectionEvents ans s).state = s ∧
      ((updateConnectionEvents ans s).code < 0 ↔ UpdateFails ans) := by
  cases hc : ans.modClient <;> cases hv : ans.modServer <;>
    simp [updateConnectionEvents,Stage.andThen,epollModify,UpdateFails,hc,hv]

/-- What an event that has not failed has done to the connection. -/
theorem processEvent_handled (hwf : ∀ e, (conn.readBuf e).Wf) (ha : ans.Fit d conn)
    (hcode : 0 ≤ (processEvent d events ans conn).code) :
    ¬ EventFails d events ans conn ∧
      Handled d events ans conn (processEvent d events ans conn).state := by
  have hexact : Exact (fun s => s = conn)
      ((receiveStage d events ans.recv).andThen (flushStage d events ans.send))
      (ReceiveFails d events ans conn ∨ FlushFails d events ans conn)
      (Transferred d events ans conn) := transfer_exact hwf ha
  have htransfer := hexact.frame
    (andThen_state (K := fun s => s.writeClosed d = conn.writeClosed d)
      (fun s h => (receiveStage_writeClosed s d).trans h)
      (fun s h => (flushStage_writeClosed s d).trans h))
  have hupdate : Exact (Handled d events ans conn) (updateConnectionEvents ans) (UpdateFails ans)
      (Handled d events ans conn) := by
    intro s hs
    obtain ⟨hstate,hfail⟩ := updateConnectionEvents_state ans s
    exact ⟨hfail,fun _ => by rwa [hstate]⟩
  have hall := htransfer.andThen
    (hangupStage_noted.andThen (shutdownStage_handled.andThen hupdate))
  rw [Stage.andThen_assoc] at hall
  obtain ⟨hfail,hhandled⟩ := hall conn ⟨rfl,rfl⟩
  have hok := fun h => not_lt.mpr hcode (hfail.mpr h)
  refine ⟨fun h => hok ?_,hhandled hok⟩
  simpa [EventFails] using h

end Exactness

section Forwarding

variable {s t : Session} {e : Event}

/-- Every stream that has ended, and whose bytes are all out, has its end passed on. -/
def EndsForwarded (conn : Connection) : Prop :=
  ∀ d, conn.readOpen d = false → bufferEmpty (conn.readBuf d) = true →
    conn.writeClosed d.other = true

/-- The event does not send the last bytes of a stream that has ended and whose end is still to
be passed on. -/
def SendsInTime (s : Session) (e : Event) : Prop :=
  e.events.epollout = true →
    e.answers.send = .sent (bufferPending (s.conn.readBuf e.side.other)) →
    s.conn.readOpen e.side.other = true ∨ s.conn.writeClosed e.side = true

instance (s : Session) (e : Event) : Decidable (SendsInTime s e) :=
  inferInstanceAs (Decidable (_ → _ → _))

/-- An event that leaves the connection alive has been handled without failure. -/
theorem handled_of_step (hwf : ∀ d, (s.conn.readBuf d).Wf) (h : anyEvents.step s e = some t)
    (hlive : t.live = true) : Handled e.side e.events e.answers s.conn t.conn := by
  obtain ⟨⟨-,hfit⟩,rfl⟩ := guarded_eq_some.mp h
  obtain ⟨hcode,-⟩ := Session.handle_live hlive
  rw [Session.handle_conn]
  exact (processEvent_handled hwf hfit hcode).2

/-- A handled event keeps all ends forwarded exactly when it sends in time. -/
theorem endsForwarded_step (hwf : ∀ d, (s.conn.readBuf d).Wf)
    (h : anyEvents.step s e = some t) (hlive : t.live = true) :
    (EndsForwarded s.conn → SendsInTime s e → EndsForwarded t.conn) ∧
      (¬ SendsInTime s e → ¬ EndsForwarded t.conn) := by
  have hs := handled_of_step hwf h hlive
  constructor
  · intro hends hok d hopen hempty
    rcases e.side.eq_or_eq_other d with rfl | rfl
    · exact hs.passed hopen hempty
    · rw [hs.readOpen_other] at hopen
      rw [Side.other_other,hs.writeClosed_self]
      rcases hs.outbound.mp hempty with hwas | ⟨hout,hsent⟩
      · simpa using hends _ hopen hwas
      · rcases hok hout hsent with hstill | hdone
        · rw [hopen] at hstill
          contradiction
        · exact hdone
  · intro hlate hends
    unfold SendsInTime at hlate
    push Not at hlate
    obtain ⟨hout,hsent,hopen,hw⟩ := hlate
    have hpassed := hends e.side.other (hs.readOpen_other.trans (by simpa using hopen))
      (hs.outbound.mpr (.inr ⟨hout,hsent⟩))
    rw [Side.other_other,hs.writeClosed_self] at hpassed
    exact hw hpassed

/-- In every run whose events send in time, each end whose stream is drained has been passed on
after every event; and an event that does not leaves one behind. -/
theorem ends_forwarded_in_time (s : Session) :
    (anyEvents.ReachableUnder SendsInTime s → s.live = true → EndsForwarded s.conn) ∧
    ∀ e t, anyEvents.Reachable s → ¬ SendsInTime s e → anyEvents.step s e = some t →
      t.live = true → ¬ EndsForwarded t.conn := by
  have hwf : ∀ {s}, anyEvents.Reachable s → ∀ d, (s.conn.readBuf d).Wf :=
    fun h => (anyEvents_faithful h).wf
  constructor
  · intro h
    refine h.invariant (I := fun s => s.live = true → EndsForwarded s.conn) ?_ ?_
    · rintro s ⟨ans,hs⟩ - d hopen
      obtain rfl := createConnection_eq hs
      simp [Session.created] at hopen
    · intro s e t hs ih hok hstep hlive
      obtain ⟨⟨hwas,-⟩,-⟩ := guarded_eq_some.mp hstep
      exact (endsForwarded_step (hwf hs.reachable) hstep hlive).1 (ih hwas) hok
  · intro e t hs hlate hstep hlive
    exact (endsForwarded_step (hwf hs) hstep hlive).2 hlate

/-- The server sends one byte and ends its stream. -/
def serverEnds : List Event :=
  [⟨.server,{ epollin := true },⟨.data [7],.wouldBlock,true,true⟩⟩,
   ⟨.server,{ epollin := true, epollrdhup := true },⟨.fin,.wouldBlock,true,true⟩⟩]

/-- The client takes the byte. -/
def clientTakes : Event := ⟨.client,{ epollout := true },⟨.wouldBlock,.sent 1,true,true⟩⟩

/-- The byte waits for the client, and every due end is forwarded; then the client takes it. -/
theorem ends_forwarded_in_time_run :
    (∃ s, (anyEvents.restrict SendsInTime).run serverEnds Session.created = some s ∧
      s.conn.serverReadOpen = false ∧ EndsForwarded s.conn) ∧
    ∃ s t, anyEvents.run serverEnds Session.created = some s ∧
      anyEvents.step s clientTakes = some t ∧ ¬ EndsForwarded t.conn := by
  have hinit : ∀ {ok}, anyEvents.ReachableUnder ok Session.created :=
    .init ⟨⟨true,true,true,true,true,true⟩,rfl⟩
  constructor
  · have hrun : ((anyEvents.restrict SendsInTime).run serverEnds Session.created).map
        (fun s => (s.live,s.conn.serverReadOpen)) = some (true,false) := by decide
    obtain ⟨s,hs,hout⟩ := Option.map_eq_some_iff.mp hrun
    obtain ⟨hlive,hopen⟩ := Prod.mk.inj hout
    have hreach := Machine.ReachableUnder.of_run hinit hs
    exact ⟨s,hs,hopen,(ends_forwarded_in_time s).1 hreach hlive⟩
  · have hrun : (anyEvents.run serverEnds Session.created).map
        (fun s => (decide (SendsInTime s clientTakes),
          (anyEvents.step s clientTakes).map Session.live)) = some (false,some true) := by decide
    obtain ⟨s,hs,hout⟩ := Option.map_eq_some_iff.mp hrun
    obtain ⟨hlate,hstep⟩ := Prod.mk.inj hout
    obtain ⟨t,ht,hlive⟩ := Option.map_eq_some_iff.mp hstep
    exact ⟨s,t,hs,ht,(ends_forwarded_in_time s).2 clientTakes t (Machine.Reachable.of_run hinit hs)
      (of_decide_eq_false hlate) ht hlive⟩

/-- After the client has taken the server's last byte nobody has told it that the stream is over. -/
theorem late_end_run : ∃ s, anyEvents.run (serverEnds ++ [clientTakes]) Session.created = some s ∧
    s.live = true ∧ s.conn.serverReadOpen = false ∧ bufferEmpty s.conn.s2c = true ∧
    s.conn.clientWriteClosed = false := by
  have hrun : (anyEvents.run (serverEnds ++ [clientTakes]) Session.created).map
      (fun s => (s.live,s.conn.serverReadOpen,bufferEmpty s.conn.s2c,s.conn.clientWriteClosed)) =
      some (true,false,true,false) := by decide
  obtain ⟨s,hs,hout⟩ := Option.map_eq_some_iff.mp hrun
  simp only [Prod.mk.injEq] at hout
  exact ⟨s,hs,hout⟩

end Forwarding

end NetLab.Accelerator
