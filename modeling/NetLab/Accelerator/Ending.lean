import NetLab.Accelerator.Session

/-! When an event ends its connection: the exact conditions, on the state before the event and
the answers it gets, under which a handler fails and under which both directions are finished. -/
namespace NetLab.Accelerator

open Stage

section Conditions

variable (d : Side) (events : Events) (ans : Answers) (conn : Connection)

/-- The event makes `recv` answer, and the answer is an error. -/
def ReceiveFails : Prop :=
  events.epollin = true ∧ 0 < receiveRoom (conn.readBuf d) ∧ ans.recv = .error

def FlushFails : Prop :=
  events.epollout = true ∧ bufferEmpty (conn.readBuf d.other) = false ∧ ans.send = .error

def ReportsHangup : Prop := events.epollerr = true ∨ events.epollhup = true

def UpdateFails : Prop := ans.modClient = false ∨ ans.modServer = false

/-- The handler returns -1. -/
def EventFails : Prop :=
  (ReceiveFails d events ans conn ∨ FlushFails d events ans conn) ∨
    ReportsHangup events ∨ UpdateFails ans

/-- This event's `recv` reports the orderly end of the stream of `d`. -/
def ReceivesEnd : Prop :=
  events.epollin = true ∧ 0 < receiveRoom (conn.readBuf d) ∧ ans.recv = .fin

/-- After the event the buffer filled from `d` is empty. -/
def InboundDrained : Prop :=
  bufferEmpty (conn.readBuf d) = true ∧
    ¬ (events.epollin = true ∧ ∃ bytes, ans.recv = .data bytes)

/-- After the event the buffer waiting for `d` is empty. -/
def OutboundDrained : Prop :=
  bufferEmpty (conn.readBuf d.other) = true ∨
    (events.epollout = true ∧ ans.send = .sent (bufferPending (conn.readBuf d.other)))

/-- A successful event that leaves nothing to do in either direction. -/
def EventFinishes : Prop :=
  (conn.readOpen d = false ∨ ReceivesEnd d events ans conn ∨ events.epollrdhup = true) ∧
    conn.readOpen d.other = false ∧ InboundDrained d events ans conn ∧
      OutboundDrained d events ans conn

/-- The event ends with `destroy_connection`. -/
def EventEnds : Prop :=
  EventFails d events ans conn ∨ EventFinishes d events ans conn

/-- What `recv` and `send` have done to the flags and buffers, when neither failed. -/
structure Transferred (s : Connection) : Prop where
  readOpen_iff : s.readOpen d = false ↔ conn.readOpen d = false ∨ ReceivesEnd d events ans conn
  readOpen_other : s.readOpen d.other = conn.readOpen d.other
  inbound : bufferEmpty (s.readBuf d) = true ↔ InboundDrained d events ans conn
  outbound : bufferEmpty (s.readBuf d.other) = true ↔ OutboundDrained d events ans conn

end Conditions

theorem bufferEmpty_eq_true_iff {buf : IoBuffer} (h : buf.Wf) :
    bufferEmpty buf = true ↔ bufferPending buf = 0 := by
  rw [h.bufferEmpty_iff,← List.length_eq_zero_iff,IoBuffer.bytes_length]

/-- An empty buffer always has room. -/
theorem receiveRoom_pos_of_empty {buf : IoBuffer} (h : buf.Wf) (he : bufferEmpty buf = true) :
    0 < receiveRoom buf := by
  rw [receiveRoom_pos_iff h,(bufferEmpty_eq_true_iff h).mp he]
  decide

/-- Receiving leaves an empty buffer exactly when it was empty and no bytes came. -/
theorem receive_empty_iff (d : Side) {buf : IoBuffer} (h : buf.Wf) {a : RecvResult}
    (ha : a.Fits (receiveRoom buf)) :
    bufferEmpty (receiveIntoBuffer d buf a).2.1 = true ↔
      bufferEmpty buf = true ∧ ¬ ∃ bytes, a = .data bytes := by
  obtain ⟨hwf,hbytes⟩ := receiveIntoBuffer_spec d h ha
  rw [hwf.bufferEmpty_iff,h.bufferEmpty_iff,hbytes,List.append_eq_nil_iff]
  refine and_congr_right (fun hnil => ?_)
  have hroom := receiveRoom_pos_of_empty h (h.bufferEmpty_iff.mpr hnil)
  rw [receiveIntoBuffer_calls,if_neg (by omega)]
  cases a with
  | data bytes =>
    have hpos : bytes ≠ [] := List.ne_nil_of_length_pos ha.1
    simp [receivedFrom,Call.received,hpos]
  | _ => simp [receivedFrom,Call.received]

/-- Flushing leaves an empty buffer exactly when it was empty or everything was sent. -/
theorem flush_empty_iff (d : Side) {buf : IoBuffer} (h : buf.Wf) {a : SendResult}
    (ha : a.Fits (bufferPending buf)) :
    bufferEmpty (flushBuffer d buf a).2.1 = true ↔
      bufferEmpty buf = true ∨ a = .sent (bufferPending buf) := by
  obtain ⟨hwf,hbytes⟩ := flushBuffer_spec d h ha
  have hlen := congrArg List.length hbytes
  rw [List.length_append,IoBuffer.bytes_length,IoBuffer.bytes_length] at hlen
  rw [bufferEmpty_eq_true_iff hwf,bufferEmpty_eq_true_iff h]
  rw [flushBuffer_calls] at hlen
  split_ifs at hlen with he
  · rw [bufferEmpty_eq_true_iff h] at he
    simp only [sentTo_nil,List.length_nil,zero_add] at hlen
    omega
  · rw [bufferEmpty_eq_true_iff h] at he
    cases a with
    | sent n =>
      have hn : n ≤ bufferPending buf := ha
      simp only [sentTo,Call.sent,List.flatMap_cons,List.flatMap_nil,if_true,List.append_nil,
        List.length_take,IoBuffer.bytes_length,SendResult.sent.injEq] at hlen ⊢
      omega
    | _ =>
      simp only [sentTo,Call.sent,List.flatMap_cons,List.flatMap_nil,List.append_nil,
        List.length_nil,zero_add] at hlen
      simp [← hlen,he]

section Exactness

variable {d : Side} {events : Events} {ans : Answers} {conn : Connection}

theorem receiveStage_exact (hwf : ∀ e, (conn.readBuf e).Wf) (ha : ans.Fit d conn) :
    Exact (fun s => s = conn) (receiveStage d events ans.recv) (ReceiveFails d events ans conn)
      (fun s => (s.readOpen d = false ↔ conn.readOpen d = false ∨ ReceivesEnd d events ans conn) ∧
        s.readOpen d.other = conn.readOpen d.other ∧
        (bufferEmpty (s.readBuf d) = true ↔ InboundDrained d events ans conn) ∧
        s.readBuf d.other = conn.readBuf d.other) := by
  rintro s rfl
  by_cases hin : events.epollin = true
  · obtain ⟨hfail,hend⟩ := receiveIntoBuffer_code d (s.readBuf d) ans.recv
    have hempty := receive_empty_iff d (hwf d) ha.1
    have hother := s.readBuf_setReadBuf_of_ne d d.other
      (receiveIntoBuffer d (s.readBuf d) ans.recv).2.1 d.other_ne
    have hends : ReceivesEnd d events ans s ↔
        (receiveIntoBuffer d (s.readBuf d) ans.recv).1 = 2 := by
      simp [ReceivesEnd,hin,hend]
    have hfails : ReceiveFails d events ans s ↔
        (receiveIntoBuffer d (s.readBuf d) ans.recv).1 < 0 := by
      simp [ReceiveFails,hin,hfail]
    have hdrain : InboundDrained d events ans s ↔
        bufferEmpty (receiveIntoBuffer d (s.readBuf d) ans.recv).2.1 = true := by
      rw [hempty]
      simp [InboundDrained,hin]
    rw [hends,hfails,hdrain]
    simp only [receiveStage,if_pos hin]
    split_ifs with hneg htwo
    · exact ⟨by simp [hneg],fun h => absurd hneg h⟩
    · refine ⟨by simp [hneg],fun _ => ⟨by simp [htwo],?_,by simp,by simpa using hother⟩⟩
      rw [Connection.readOpen_closeRead_of_ne _ _ _ d.other_ne,Connection.readOpen_setReadBuf]
    · exact ⟨by simp [hneg],fun _ => ⟨by simp [htwo],by simp,by simp,hother⟩⟩
  · simp [receiveStage,ReceiveFails,ReceivesEnd,InboundDrained,hin]

theorem flushStage_exact (hwf : ∀ e, (conn.readBuf e).Wf) (ha : ans.Fit d conn) :
    Exact
      (fun s => (s.readOpen d = false ↔ conn.readOpen d = false ∨ ReceivesEnd d events ans conn) ∧
        s.readOpen d.other = conn.readOpen d.other ∧
        (bufferEmpty (s.readBuf d) = true ↔ InboundDrained d events ans conn) ∧
        s.readBuf d.other = conn.readBuf d.other)
      (flushStage d events ans.send) (FlushFails d events ans conn)
      (Transferred d events ans conn) := by
  rintro s ⟨hopen,hother,hin,hbuf⟩
  by_cases hout : events.epollout = true
  · have hfail := flushBuffer_code d (s.readBuf d.other) ans.send
    have hempty := flush_empty_iff d (hwf d.other) ha.2
    have hfails : FlushFails d events ans conn ↔
        (flushBuffer d (s.readBuf d.other) ans.send).1 < 0 := by
      rw [hfail,hbuf]
      simp [FlushFails,hout]
    rw [hfails]
    simp only [flushStage,if_pos hout]
    refine ⟨by split_ifs with hc <;> simp [hc],fun _ => ⟨?_,?_,?_,?_⟩⟩
    · simpa using hopen
    · simpa using hother
    · rw [Connection.readBuf_setReadBuf_of_ne _ _ _ _ d.ne_other]
      exact hin
    · rw [Connection.readBuf_setReadBuf_self,hbuf,hempty]
      simp [OutboundDrained,hout]
  · refine ⟨by simp [flushStage,FlushFails,hout],fun _ => ?_⟩
    simp only [flushStage,if_neg hout]
    exact ⟨hopen,hother,hin,by simp [OutboundDrained,hout,hbuf]⟩

theorem transfer_exact (hwf : ∀ e, (conn.readBuf e).Wf) (ha : ans.Fit d conn) :
    Exact (fun s => s = conn)
      ((receiveStage d events ans.recv).andThen (flushStage d events ans.send))
      (ReceiveFails d events ans conn ∨ FlushFails d events ans conn)
      (Transferred d events ans conn) :=
  (receiveStage_exact hwf ha).andThen (flushStage_exact hwf ha)

/-- The flags and buffers that decide whether the connection is finished after an event. -/
def Settled (d : Side) (events : Events) (ans : Answers) (conn s : Connection) : Prop :=
  connectionFinished s = true ↔ EventFinishes d events ans conn

theorem hangupStage_exact :
    Exact (Transferred d events ans conn) (hangupStage d events) (ReportsHangup events)
      (Settled d events ans conn) := by
  intro s hs
  have hfinished : ∀ t : Connection, (∀ e, t.readBuf e = s.readBuf e) →
      (t.readOpen d = false ↔ s.readOpen d = false ∨ events.epollrdhup = true) →
      t.readOpen d.other = s.readOpen d.other → Settled d events ans conn t := by
    intro t hbuf hself hother
    have hall : connectionFinished t = true ↔
        (t.readOpen d = false ∧ bufferEmpty (t.readBuf d) = true) ∧
          (t.readOpen d.other = false ∧ bufferEmpty (t.readBuf d.other) = true) := by
      rw [connectionFinished_iff]
      constructor
      · exact fun h => ⟨h d,h d.other⟩
      · rintro ⟨h1,h2⟩ e
        rcases d.eq_or_eq_other e with rfl | rfl
        · exact h1
        · exact h2
    rw [Settled,hall,hself,hother,hbuf,hbuf,hs.readOpen_iff,hs.readOpen_other,hs.inbound,hs.outbound,
      EventFinishes]
    tauto
  by_cases hup : events.epollerr = true ∨ events.epollhup = true
  · refine ⟨?_,fun h => absurd hup h⟩
    simp [hangupStage,ReportsHangup,hup]
  · have hno : (events.epollerr || events.epollhup) = false := by simpa using hup
    simp only [hangupStage,hno,Bool.false_eq_true,if_false]
    refine ⟨?_,fun _ => ?_⟩
    · split_ifs <;> simp [ReportsHangup,hup]
    · split_ifs with hr
      · exact hfinished _ (fun e => s.readBuf_closeRead d e) (by simp [hr])
          (s.readOpen_closeRead_of_ne d d.other d.other_ne)
      · exact hfinished _ (fun _ => rfl) (by simp [hr]) rfl

theorem Settled.of_same {s t : Connection} (h : Settled d events ans conn s)
    (hbuf : ∀ e, t.readBuf e = s.readBuf e) (hopen : ∀ e, t.readOpen e = s.readOpen e) :
    Settled d events ans conn t := by
  unfold Settled at h ⊢
  rw [← h,connectionFinished_iff,connectionFinished_iff]
  simp only [hbuf,hopen]

theorem shutdownStage_exact :
    Exact (Settled d events ans conn) (shutdownStage d) False (Settled d events ans conn) := by
  intro s hs
  simp only [shutdownStage]
  split_ifs
  · exact ⟨by simp,fun _ => hs.of_same (fun e => s.readBuf_closeWrite _ e)
      (fun e => s.readOpen_closeWrite _ e)⟩
  · exact ⟨by simp,fun _ => hs⟩

theorem updateConnectionEvents_exact :
    Exact (Settled d events ans conn) (updateConnectionEvents ans) (UpdateFails ans)
      (Settled d events ans conn) := by
  intro s hs
  cases hc : ans.modClient <;> cases hv : ans.modServer <;>
    simp [updateConnectionEvents,Stage.andThen,epollModify,UpdateFails,hc,hv,hs]

/-- A handler fails exactly on the listed answers and event bits, and when it does not fail the
connection is finished exactly when both directions are closed and drained. -/
theorem processEvent_exact (hwf : ∀ e, (conn.readBuf e).Wf) (ha : ans.Fit d conn) :
    Exact (fun s => s = conn) (processEvent d events ans) (EventFails d events ans conn)
      (Settled d events ans conn) := by
  have htail : Exact (Transferred d events ans conn)
      ((hangupStage d events).andThen ((shutdownStage d).andThen (updateConnectionEvents ans)))
      (ReportsHangup events ∨ False ∨ UpdateFails ans) (Settled d events ans conn) :=
    hangupStage_exact.andThen (shutdownStage_exact.andThen updateConnectionEvents_exact)
  have hall := (transfer_exact hwf ha).andThen htail
  rw [Stage.andThen_assoc] at hall
  refine hall.conseq (fun _ h => h) ?_ (fun _ h => h)
  simp [EventFails]

end Exactness

end NetLab.Accelerator
