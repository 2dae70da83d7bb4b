import NetLab.Foundation.Machine
import NetLab.Accelerator.Connection

/-! One split connection under arbitrary events. Every answer of `recv`, `send` and `epoll_ctl`
within their contracts is allowed, and the masks are not constrained at all. -/
namespace NetLab.Accelerator

open Stage

/-- A connection object, whether it is still allocated, and every call made for it so far. -/
structure Session where
  conn : Connection
  live : Bool
  log : List Call

/-- Which calls of `create_connection` succeed. -/
structure CreateAnswers where
  remoteSocket : Bool
  tuneClient : Bool
  nonblockingClient : Bool
  allocated : Bool
  addClient : Bool
  addServer : Bool

/-- The interest both endpoints are added with. -/
def createdEvents : Events where
  epollin := true
  epollrdhup := true

def Session.created : Session where
  conn := Connection.initial
  live := true
  log := [.epollCtl .add .client createdEvents true,.epollCtl .add .server createdEvents true]

/-- `create_connection`; `none` is its `NULL`, before which it frees what it had allocated. -/
def createConnection (ans : CreateAnswers) : Option Session :=
  if !ans.remoteSocket then none
  else if !ans.tuneClient then none
  else if !ans.nonblockingClient then none
  else if !ans.allocated then none
  else if !ans.addClient then none
  else if !ans.addServer then none
  else some Session.created

theorem createConnection_eq {ans : CreateAnswers} {s : Session} (h : createConnection ans = some s) :
    s = Session.created := by
  unfold createConnection at h
  split_ifs at h
  exact (Option.some.inj h).symm

/-- One entry of the main loop for an endpoint of this connection. -/
def Session.handle (s : Session) (d : Side) (events : Events) (ans : Answers) : Session :=
  let o := processEvent d events ans s.conn
  if o.code < 0 then ⟨o.state,false,s.log ++ o.calls ++ [.destroy]⟩
  else if connectionFinished o.state then ⟨o.state,false,s.log ++ o.calls ++ [.destroy]⟩
  else ⟨o.state,true,s.log ++ o.calls⟩

structure Event where
  side : Side
  events : Events
  answers : Answers

/-- The answers respect the contracts of `recv` and `send` for an event on side `d`. -/
def Answers.Fit (ans : Answers) (d : Side) (conn : Connection) : Prop :=
  ans.recv.Fits (receiveRoom (conn.readBuf d)) ∧ ans.send.Fits (bufferPending (conn.readBuf d.other))

instance (ans : Answers) (d : Side) (conn : Connection) : Decidable (ans.Fit d conn) :=
  inferInstanceAs (Decidable (_ ∧ _))

def anyEvents : Machine Session Event where
  init s := ∃ ans, createConnection ans = some s
  step s e :=
    if s.live = true ∧ e.answers.Fit e.side s.conn then some (s.handle e.side e.events e.answers)
    else none

theorem anyEvents_step {s : Session} {d : Side} {events : Events} {ans : Answers}
    (hlive : s.live = true) (hfit : ans.Fit d s.conn) :
    anyEvents.step s ⟨d,events,ans⟩ = some (s.handle d events ans) := if_pos ⟨hlive,hfit⟩

/-- Every `recv` was given a positive length that stays inside `data[]`. -/
def RecvInBounds (log : List Call) : Prop :=
  ∀ c ∈ log, ∀ fd offset length a, c = .recv fd offset length a →
    0 < length ∧ offset+length ≤ forwardBufferSize

/-- What was received from each side is what was sent on plus what is still buffered. -/
structure Faithful (conn : Connection) (log : List Call) : Prop where
  wf : ∀ d, (conn.readBuf d).Wf
  stream : ∀ d, receivedFrom d log = sentTo d.other log ++ (conn.readBuf d).bytes
  inBounds : RecvInBounds log

theorem RecvInBounds.append {l m : List Call} (hl : RecvInBounds l) (hm : RecvInBounds m) :
    RecvInBounds (l ++ m) := by
  intro c hc
  rcases List.mem_append.mp hc with h | h
  · exact hl c h
  · exact hm c h

theorem receiveIntoBuffer_inBounds (fd : Side) {buf : IoBuffer} (h : buf.Wf) (a : RecvResult) :
    RecvInBounds (receiveIntoBuffer fd buf a).2.2 := by
  rw [receiveIntoBuffer_calls]
  split_ifs with hz
  · simp [RecvInBounds]
  · have hstop := (prepareReceive_wf h).stop_le
    have hroom : receiveRoom buf = forwardBufferSize-(prepareReceive buf).stop := rfl
    rintro c hc fd offset length a rfl
    obtain ⟨rfl,rfl,rfl,rfl⟩ : fd = _ ∧ offset = _ ∧ length = _ ∧ a = _ := by simpa using hc
    omega

theorem Faithful.of_readBuf {conn conn' : Connection} {log : List Call} (h : Faithful conn log)
    (hbuf : ∀ d, conn'.readBuf d = conn.readBuf d) : Faithful conn' log where
  wf d := by rw [hbuf]; exact h.wf d
  stream d := by rw [hbuf]; exact h.stream d
  inBounds := h.inBounds

/-- Calls that move no bytes keep the streams. -/
theorem Faithful.append {conn : Connection} {log calls : List Call} (h : Faithful conn log)
    (hrecv : ∀ d, receivedFrom d calls = []) (hsent : ∀ d, sentTo d calls = [])
    (hin : RecvInBounds calls) : Faithful conn (log ++ calls) where
  wf := h.wf
  stream d := by simp [hrecv,hsent,h.stream d]
  inBounds := h.inBounds.append hin

theorem sentTo_receive (fd d : Side) (buf : IoBuffer) (a : RecvResult) :
    sentTo d (receiveIntoBuffer fd buf a).2.2 = [] := by
  rw [receiveIntoBuffer_calls]
  split_ifs <;> simp [sentTo,Call.sent]

theorem receivedFrom_receive_of_ne {fd d : Side} (h : fd ≠ d) (buf : IoBuffer) (a : RecvResult) :
    receivedFrom d (receiveIntoBuffer fd buf a).2.2 = [] := by
  rw [receiveIntoBuffer_calls]
  split_ifs
  · rfl
  · cases a <;> simp [receivedFrom,Call.received,h]

theorem receivedFrom_flush (fd d : Side) (buf : IoBuffer) (a : SendResult) :
    receivedFrom d (flushBuffer fd buf a).2.2 = [] := by
  rw [flushBuffer_calls]
  split_ifs <;> simp [receivedFrom,Call.received]

theorem sentTo_flush_of_ne {fd d : Side} (h : fd ≠ d) (buf : IoBuffer) (a : SendResult) :
    sentTo d (flushBuffer fd buf a).2.2 = [] := by
  rw [flushBuffer_calls]
  split_ifs
  · rfl
  · cases a <;> simp [sentTo,Call.sent,h]

/-- Receiving into the buffer of `d` extends the stream of `d` at both ends of the equation. -/
theorem Faithful.receive {conn : Connection} {log : List Call} (h : Faithful conn log) (d : Side)
    {a : RecvResult} (ha : a.Fits (receiveRoom (conn.readBuf d))) :
    Faithful (conn.setReadBuf d (receiveIntoBuffer d (conn.readBuf d) a).2.1)
      (log ++ (receiveIntoBuffer d (conn.readBuf d) a).2.2) := by
  obtain ⟨hwf,hbytes⟩ := receiveIntoBuffer_spec d (h.wf d) ha
  constructor
  · intro e
    rcases d.eq_or_eq_other e with rfl | rfl
    · simpa using hwf
    · rw [Connection.readBuf_setReadBuf_of_ne _ _ _ _ d.other_ne]
      exact h.wf _
  · intro e
    rcases d.eq_or_eq_other e with rfl | rfl
    · simp [h.stream,hbytes,sentTo_receive]
    · rw [Connection.readBuf_setReadBuf_of_ne _ _ _ _ d.other_ne]
      simp [h.stream,sentTo_receive,receivedFrom_receive_of_ne d.ne_other]
  · exact h.inBounds.append (receiveIntoBuffer_inBounds d (h.wf d) a)

/-- Flushing to `d` moves bytes of the other side from the buffer to what was sent. -/
theorem Faithful.flush {conn : Connection} {log : List Call} (h : Faithful conn log) (d : Side)
    {a : SendResult} (ha : a.Fits (bufferPending (conn.readBuf d.other))) :
    Faithful (conn.setReadBuf d.other (flushBuffer d (conn.readBuf d.other) a).2.1)
      (log ++ (flushBuffer d (conn.readBuf d.other) a).2.2) := by
  obtain ⟨hwf,hbytes⟩ := flushBuffer_spec d (h.wf d.other) ha
  constructor
  · intro e
    rcases d.other.eq_or_eq_other e with rfl | rfl
    · simpa using hwf
    · rw [Connection.readBuf_setReadBuf_of_ne _ _ _ _ d.other.other_ne]
      exact h.wf _
  · intro e
    rcases d.other.eq_or_eq_other e with rfl | rfl
    · simp only [receivedFrom_append,sentTo_append,receivedFrom_flush,List.append_nil,h.stream,
        Side.other_other,Connection.readBuf_setReadBuf_self,List.append_assoc,← hbytes]
    · rw [Connection.readBuf_setReadBuf_of_ne _ _ _ _ d.other.other_ne]
      simp only [Side.other_other]
      simp [receivedFrom_flush,sentTo_flush_of_ne d.ne_other,h.stream]
  · refine h.inBounds.append ?_
    rw [flushBuffer_calls]
    split_ifs <;> simp [RecvInBounds]

theorem receiveStage_faithful (d : Side) (events : Events) (ans : Answers) :
    Triple (fun conn log => Faithful conn log ∧ ans.Fit d conn) (receiveStage d events ans.recv)
      (fun _ conn log => Faithful conn log ∧ ans.send.Fits (bufferPending (conn.readBuf d.other))) := by
  rintro conn log ⟨h,hrecv,hsend⟩
  have hr := h.receive d hrecv
  have hother := conn.readBuf_setReadBuf_of_ne d d.other
    (receiveIntoBuffer d (conn.readBuf d) ans.recv).2.1 d.other_ne
  simp only [receiveStage]
  split_ifs
  · exact ⟨hr,by simpa [hother] using hsend⟩
  · exact ⟨hr.of_readBuf (fun e => by simp),by simpa [hother] using hsend⟩
  · exact ⟨hr,by simpa [hother] using hsend⟩
  · exact ⟨by simpa using h,hsend⟩

theorem flushStage_faithful (d : Side) (events : Events) (a : SendResult) :
    Triple (fun conn log => Faithful conn log ∧ a.Fits (bufferPending (conn.readBuf d.other)))
      (flushStage d events a) (fun _ conn log => Faithful conn log) := by
  rintro conn log ⟨h,hsend⟩
  simp only [flushStage]
  split_ifs
  · exact h.flush d hsend
  · exact h.flush d hsend
  · simpa using h

theorem hangupStage_faithful (d : Side) (events : Events) :
    Keeps Faithful (hangupStage d events) := by
  intro conn log h
  unfold hangupStage
  split_ifs
  · simpa using h
  · simpa using h.of_readBuf (fun e => conn.readBuf_closeRead d e)
  · simpa using h

theorem shutdownStage_faithful (d : Side) : Keeps Faithful (shutdownStage d) := by
  intro conn log h
  unfold shutdownStage
  split_ifs
  · refine Faithful.append (h.of_readBuf (fun e => conn.readBuf_closeWrite d.other e)) ?_ ?_ ?_
    · simp [receivedFrom,Call.received]
    · simp [sentTo,Call.sent]
    · simp [RecvInBounds]
  · simpa using h

theorem epollModify_faithful (d : Side) (events : Connection → Events) (ok : Bool) :
    Keeps Faithful (fun conn => epollModify d (events conn) ok conn) := by
  intro conn log h
  refine h.append ?_ ?_ ?_
  · simp [epollModify,receivedFrom,Call.received]
  · simp [epollModify,sentTo,Call.sent]
  · simp [epollModify,RecvInBounds]

theorem updateConnectionEvents_faithful (ans : Answers) :
    Keeps Faithful (updateConnectionEvents ans) := by
  intro conn log h
  exact (epollModify_faithful .client (fun _ => wantedEvents conn .client) ans.modClient).andThen
    (epollModify_faithful .server (fun _ => wantedEvents conn .server) ans.modServer) conn log h

/-- No event, with whatever mask and answers, makes the buffers and the streams disagree. -/
theorem processEvent_faithful (d : Side) (events : Events) (ans : Answers) :
    Triple (fun conn log => Faithful conn log ∧ ans.Fit d conn) (processEvent d events ans)
      (fun _ conn log => Faithful conn log) := by
  have htail : Keeps Faithful ((hangupStage d events).andThen
      ((shutdownStage d).andThen (updateConnectionEvents ans))) :=
    (hangupStage_faithful d events).andThen
      ((shutdownStage_faithful d).andThen (updateConnectionEvents_faithful ans))
  have hflush : Triple
      (fun conn log => Faithful conn log ∧ ans.send.Fits (bufferPending (conn.readBuf d.other)))
      ((flushStage d events ans.send).andThen ((hangupStage d events).andThen
        ((shutdownStage d).andThen (updateConnectionEvents ans))))
      (fun _ conn log => Faithful conn log) :=
    (flushStage_faithful d events ans.send).seq (fun _ _ _ _ h => h) htail
  exact (receiveStage_faithful d events ans).seq (fun _ _ _ _ h => h.1) hflush

theorem created_faithful : Faithful Session.created.conn Session.created.log where
  wf d := by simpa [Session.created] using IoBuffer.zero_wf
  stream d := by
    simp [Session.created,receivedFrom,sentTo,Call.received,Call.sent,IoBuffer.bytes,bufferPending,
      IoBuffer.zero]
  inBounds := by simp [Session.created,RecvInBounds]

theorem Session.handle_faithful {s : Session} (h : Faithful s.conn s.log) {d : Side}
    {events : Events} {ans : Answers} (ha : ans.Fit d s.conn) :
    Faithful (s.handle d events ans).conn (s.handle d events ans).log := by
  have hp := processEvent_faithful d events ans s.conn s.log ⟨h,ha⟩
  have hd : Faithful (processEvent d events ans s.conn).state
      (s.log ++ (processEvent d events ans s.conn).calls ++ [.destroy]) := by
    refine hp.append ?_ ?_ ?_
    · simp [receivedFrom,Call.received]
    · simp [sentTo,Call.sent]
    · simp [RecvInBounds]
  simp only [Session.handle]
  split_ifs
  · exact hd
  · exact hd
  · exact hp

theorem anyEvents_faithful {s : Session} (h : anyEvents.Reachable s) : Faithful s.conn s.log := by
  refine h.invariant (I := fun s => Faithful s.conn s.log) ?_ ?_
  · rintro s ⟨ans,hs⟩
    rw [createConnection_eq hs]
    exact created_faithful
  · rintro s e t - ih - ht
    obtain ⟨⟨-,hfit⟩,rfl⟩ := guarded_eq_some.mp ht
    exact Session.handle_faithful ih hfit

/-- Stream fidelity of both forward buffers, whatever the events and answers were: the indices
stay in order and in range, `recv` only ever writes inside `data[]`, and the bytes sent on
followed by the buffered ones are the bytes received. -/
theorem forward_streams_faithful {s : Session} (h : anyEvents.Reachable s) :
    (∀ d, (s.conn.readBuf d).start ≤ (s.conn.readBuf d).stop ∧
      (s.conn.readBuf d).stop ≤ forwardBufferSize) ∧
    (∀ fd offset length a, Call.recv fd offset length a ∈ s.log →
      0 < length ∧ offset+length ≤ forwardBufferSize) ∧
    sentTo .server s.log ++ s.conn.c2s.bytes = receivedFrom .client s.log ∧
    sentTo .client s.log ++ s.conn.s2c.bytes = receivedFrom .server s.log := by
  have hf := anyEvents_faithful h
  refine ⟨fun d => ⟨(hf.wf d).start_le,(hf.wf d).stop_le⟩,?_,?_,?_⟩
  · intro fd offset length a hc
    exact hf.inBounds _ hc fd offset length a rfl
  · exact (hf.stream .client).symm
  · exact (hf.stream .server).symm

theorem anyEvents_created : anyEvents.Reachable Session.created :=
  .init ⟨⟨true,true,true,true,true,true⟩,rfl⟩

/-- Two receives with a partial send in between. -/
def partialSendEvents : List Event :=
  [⟨.client,{ epollin := true },⟨.data [1,2,3],.wouldBlock,true,true⟩⟩,
   ⟨.server,{ epollout := true },⟨.wouldBlock,.sent 2,true,true⟩⟩,
   ⟨.client,{ epollin := true },⟨.data [4],.wouldBlock,true,true⟩⟩]

theorem forward_streams_partial_send :
    ∃ s, anyEvents.run partialSendEvents Session.created = some s ∧
      receivedFrom .client s.log = [1,2,3,4] ∧
      sentTo .server s.log ++ s.conn.c2s.bytes = [1,2,3,4] := by
  have hr : (anyEvents.run partialSendEvents Session.created).isSome = true := by decide
  obtain ⟨s,hs⟩ := Option.isSome_iff_exists.mp hr
  have hf := forward_streams_faithful (Machine.Reachable.of_run anyEvents_created hs)
  have hrecv : (anyEvents.run partialSendEvents Session.created).map
      (fun s => receivedFrom .client s.log) = some [1,2,3,4] := by decide
  rw [hs] at hrecv
  have he : receivedFrom .client s.log = [1,2,3,4] := Option.some.inj hrecv
  exact ⟨s,hs,he,hf.2.2.1.trans he⟩

end NetLab.Accelerator
