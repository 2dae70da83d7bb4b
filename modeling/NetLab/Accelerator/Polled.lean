import NetLab.Foundation.Pipe
import NetLab.Accelerator.Session

/-! One split connection under level-triggered polling: the kernel reports registered events, and
`EPOLLERR` and `EPOLLHUP` at any time, in batches with at most one entry for each endpoint. Each
direction then refines a bounded pipe whose end mark is the relay's `shutdown`. -/
namespace NetLab.Accelerator

open Stage

/-- The kernel's interest entry of endpoint `d` after one more call. -/
def Call.rearm (d : Side) (current : Events) : Call → Events
  | .epollCtl _ fd events true => if fd = d then events else current
  | _ => current

/-- The interest registered for endpoint `d` after the calls of `log`. -/
def registered (log : List Call) (d : Side) : Events := log.foldl (Call.rearm d) {}

/-- A session together with the entries of the current batch that are still to be handled. -/
structure Polled where
  session : Session
  batch : List (Side × Events)

/-- `EPOLLERR` and `EPOLLHUP` need no registration. -/
def Reportable (interest reported : Events) : Prop :=
  (reported.epollin = true → interest.epollin = true) ∧
  (reported.epollout = true → interest.epollout = true) ∧
  (reported.epollrdhup = true → interest.epollrdhup = true)

instance (interest reported : Events) : Decidable (Reportable interest reported) :=
  inferInstanceAs (Decidable (_ ∧ _ ∧ _))

inductive PollLabel
  | wait (batch : List (Side × Events))
  | handle (answers : Answers)

def Polled.step (p : Polled) : PollLabel → Option Polled
  | .wait batch =>
    if p.session.live = true ∧ p.batch = [] ∧ (batch.map Prod.fst).Nodup ∧
        ∀ e ∈ batch, Reportable (registered p.session.log e.1) e.2 then
      some { p with batch := batch }
    else none
  | .handle ans =>
    match p.batch with
    | [] => none
    | e::rest =>
      if p.session.live = true ∧ ans.Fit e.1 p.session.conn then
        some ⟨p.session.handle e.1 e.2 ans,rest⟩
      else none

def polled : Machine Polled PollLabel where
  init p := (∃ ans, createConnection ans = some p.session) ∧ p.batch = []
  step := Polled.step

theorem Polled.step_wait {p q : Polled} {batch : List (Side × Events)} :
    p.step (.wait batch) = some q ↔
      (p.session.live = true ∧ p.batch = [] ∧ (batch.map Prod.fst).Nodup ∧
        ∀ e ∈ batch, Reportable (registered p.session.log e.1) e.2) ∧
      q = { p with batch := batch } :=
  guarded_eq_some

theorem Polled.step_handle {p q : Polled} {ans : Answers} (h : p.step (.handle ans) = some q) :
    ∃ e rest, p.batch = e::rest ∧ p.session.live = true ∧ ans.Fit e.1 p.session.conn ∧
      q = ⟨p.session.handle e.1 e.2 ans,rest⟩ := by
  cases hb : p.batch with
  | nil => simp [Polled.step,hb] at h
  | cons e rest =>
    simp only [Polled.step,hb] at h
    obtain ⟨⟨hlive,hfit⟩,rfl⟩ := guarded_eq_some.mp h
    exact ⟨e,rest,rfl,hlive,hfit,rfl⟩

/-- The part of one call in the direction out of side `d`. -/
def Call.move (d : Side) (c : Call) : Option (Pipe.Move Byte) :=
  match c with
  | .recv fd _ _ _ => if fd = d then some (.accept (c.received d)) else none
  | .send fd _ _ => if fd = d.other then some (.deliver (c.sent d.other)) else none
  | .shutdown fd => if fd = d.other then some .finish else none
  | .epollCtl _ _ _ _ => none
  | .destroy => none

def moves (d : Side) (log : List Call) : List (Pipe.Move Byte) := log.filterMap (Call.move d)

@[simp] theorem moves_nil (d : Side) : moves d [] = [] := rfl

@[simp] theorem moves_append (d : Side) (l m : List Call) :
    moves d (l ++ m) = moves d l ++ moves d m := List.filterMap_append

theorem Call.received_eq_move (d : Side) (c : Call) :
    c.received d = ((c.move d).toList).flatMap Pipe.Move.accepted := by
  cases c with
  | recv fd offset length a =>
    by_cases h : fd = d
    · simp [Call.move,h,Pipe.Move.accepted]
    · cases a <;> simp [Call.move,Call.received,h]
  | send fd bytes a => by_cases h : fd = d.other <;> simp [Call.move,Call.received,h,Pipe.Move.accepted]
  | shutdown fd => by_cases h : fd = d.other <;> simp [Call.move,Call.received,h,Pipe.Move.accepted]
  | _ => rfl

theorem Call.sent_eq_move (d : Side) (c : Call) :
    c.sent d.other = ((c.move d).toList).flatMap Pipe.Move.delivered := by
  cases c with
  | recv fd offset length a => by_cases h : fd = d <;> simp [Call.move,Call.sent,h,Pipe.Move.delivered]
  | send fd bytes a =>
    by_cases h : fd = d.other
    · simp [Call.move,h,Pipe.Move.delivered]
    · cases a <;> simp [Call.move,Call.sent,h]
  | shutdown fd => by_cases h : fd = d.other <;> simp [Call.move,Call.sent,h,Pipe.Move.delivered]
  | _ => rfl

/-- Both streams of a direction can be read off its moves. -/
theorem streams_eq_moves (d : Side) (log : List Call) :
    receivedFrom d log = (moves d log).flatMap Pipe.Move.accepted ∧
      sentTo d.other log = (moves d log).flatMap Pipe.Move.delivered := by
  induction log with
  | nil => exact ⟨rfl,rfl⟩
  | cons c log ih =>
    have hm : moves d (c::log) = (c.move d).toList ++ moves d log := by
      cases h : c.move d <;> simp [moves,h]
    constructor
    · rw [hm,List.flatMap_append,← Call.received_eq_move,← ih.1]
      rfl
    · rw [hm,List.flatMap_append,← Call.sent_eq_move,← ih.2]
      rfl

/-- The pipe that the calls of `log` have driven in the direction out of `d`. -/
def pipeOf (d : Side) (conn : Connection) (log : List Call) : Pipe Byte :=
  ⟨receivedFrom d log,sentTo d.other log,conn.writeClosed d.other⟩

/-- The direction out of `d` refines the bounded pipe, and its end is passed on only after its
source has been closed for reading. -/
structure Piped (d : Side) (conn : Connection) (log : List Call) : Prop where
  run : (Pipe.machine Byte forwardBufferSize).run (moves d log) Pipe.empty = some (pipeOf d conn log)
  closed : conn.writeClosed d.other = true → conn.readOpen d = false

theorem Faithful.held_eq {conn : Connection} {log : List Call} (h : Faithful conn log) (d : Side) :
    (pipeOf d conn log).held = (conn.readBuf d).bytes := by
  simp [Pipe.held,pipeOf,h.stream d]

theorem Piped.sound {d : Side} {conn : Connection} {log : List Call} (h : Piped d conn log) :
    (pipeOf d conn log).Sound forwardBufferSize :=
  Pipe.run_sound (Pipe.empty_sound _) h.run

/-- Calls extend the refinement when they are a run of the pipe. -/
theorem Piped.extend {d : Side} {conn conn' : Connection} {log calls : List Call}
    (h : Piped d conn log)
    (hrun : (Pipe.machine Byte forwardBufferSize).run (moves d calls) (pipeOf d conn log) =
      some (pipeOf d conn' (log ++ calls)))
    (hclosed : conn'.writeClosed d.other = true → conn'.readOpen d = false) :
    Piped d conn' (log ++ calls) where
  run := by rw [moves_append,Machine.run_append,h.run]; exact hrun
  closed := hclosed

/-- Calls outside the direction leave its pipe where it is. -/
theorem Piped.frame {d : Side} {conn conn' : Connection} {log calls : List Call}
    (h : Piped d conn log) (hmoves : moves d calls = [])
    (hw : conn'.writeClosed d.other = conn.writeClosed d.other)
    (hr : conn'.readOpen d = true → conn.readOpen d = true) : Piped d conn' (log ++ calls) := by
  obtain ⟨hrecv,hsent⟩ := streams_eq_moves d calls
  rw [hmoves,List.flatMap_nil] at hrecv hsent
  apply h.extend
  · simp [hmoves,pipeOf,hrecv,hsent,hw]
  · intro hc
    rw [hw] at hc
    by_contra ho
    have hopen := hr (by simpa using ho)
    rw [h.closed hc] at hopen
    contradiction

/-- Faithful buffers, with both directions refining their pipes. -/
def Relaying (conn : Connection) (log : List Call) : Prop :=
  Faithful conn log ∧ ∀ d, Piped d conn log

theorem receive_moves_of_ne {fd d : Side} (h : fd ≠ d) (buf : IoBuffer) (a : RecvResult) :
    moves d (receiveIntoBuffer fd buf a).2.2 = [] := by
  rw [receiveIntoBuffer_calls]
  split_ifs <;> simp [moves,Call.move,h]

theorem flush_moves_of_ne {fd d : Side} (h : fd ≠ d.other) (buf : IoBuffer) (a : SendResult) :
    moves d (flushBuffer fd buf a).2.2 = [] := by
  rw [flushBuffer_calls]
  split_ifs <;> simp [moves,Call.move,h]

/-- Receiving from an open side is a move of its pipe: the pipe has not been ended, and the
bytes fit because the buffer they land in is well formed. -/
theorem Piped.receive {conn : Connection} {log : List Call} (hf : Faithful conn log) (d : Side)
    (h : Piped d conn log) (hopen : conn.readOpen d = true) {a : RecvResult}
    (ha : a.Fits (receiveRoom (conn.readBuf d))) :
    Piped d (conn.setReadBuf d (receiveIntoBuffer d (conn.readBuf d) a).2.1)
      (log ++ (receiveIntoBuffer d (conn.readBuf d) a).2.2) := by
  have hw : conn.writeClosed d.other = false := by
    by_contra hc
    rw [h.closed (by simpa using hc)] at hopen
    contradiction
  obtain ⟨hwf,hbytes⟩ := receiveIntoBuffer_spec d (hf.wf d) ha
  apply h.extend
  · have hlen := congrArg List.length hbytes
    have hstop := hwf.stop_le
    simp only [IoBuffer.bytes_length,List.length_append] at hlen
    rw [receiveIntoBuffer_calls] at hlen ⊢
    split_ifs at hlen ⊢ with hz
    · simp [pipeOf]
    · have hmove : Call.move d (.recv d (prepareReceive (conn.readBuf d)).stop
          (receiveRoom (conn.readBuf d)) a) = some (.accept (receivedFrom d [.recv d
            (prepareReceive (conn.readBuf d)).stop (receiveRoom (conn.readBuf d)) a])) := by
        simp [Call.move,receivedFrom]
      simp only [moves,List.filterMap_cons,hmove,List.filterMap_nil,Machine.run_cons]
      rw [show (Pipe.machine Byte forwardBufferSize).step = Pipe.step forwardBufferSize from rfl,
        Pipe.step_accept.mpr ⟨⟨hw,?_⟩,rfl⟩]
      · simp [pipeOf,sentTo,Call.sent]
      · rw [hf.held_eq,IoBuffer.bytes_length]
        simp only [bufferPending] at hlen ⊢
        omega
  · intro hc
    rw [Connection.writeClosed_setReadBuf,hw] at hc
    contradiction

/-- Flushing a buffer that still holds bytes is a move of its pipe: an ended pipe holds none. -/
theorem Piped.flush {conn : Connection} {log : List Call} (hf : Faithful conn log) (d : Side)
    (h : Piped d.other conn log) {a : SendResult}
    (ha : a.Fits (bufferPending (conn.readBuf d.other))) :
    Piped d.other (conn.setReadBuf d.other (flushBuffer d (conn.readBuf d.other) a).2.1)
      (log ++ (flushBuffer d (conn.readBuf d.other) a).2.2) := by
  obtain ⟨-,hbytes⟩ := flushBuffer_spec d (hf.wf d.other) ha
  apply h.extend
  · rw [flushBuffer_calls] at hbytes ⊢
    split_ifs at hbytes ⊢ with he
    · simp [pipeOf]
    · have hheld := hf.held_eq d.other
      have hw : conn.writeClosed d.other.other = false := by
        by_contra hc
        have hdrained := h.sound.drained (by simpa [pipeOf] using hc)
        rw [hheld,← (hf.wf d.other).bufferEmpty_iff] at hdrained
        exact he hdrained
      have hmove : Call.move d.other (.send d (conn.readBuf d.other).bytes a) =
          some (.deliver (sentTo d.other.other [.send d (conn.readBuf d.other).bytes a])) := by
        simp [Call.move,sentTo]
      simp only [moves,List.filterMap_cons,hmove,List.filterMap_nil,Machine.run_cons]
      rw [show (Pipe.machine Byte forwardBufferSize).step = Pipe.step forwardBufferSize from rfl,
        Pipe.step_deliver.mpr ⟨⟨hw,?_⟩,rfl⟩]
      · simp [pipeOf,receivedFrom,Call.received]
      · rw [hheld]
        exact ⟨_,by simpa using hbytes.symm⟩
  · intro hc
    rw [Connection.writeClosed_setReadBuf] at hc
    rw [Connection.readOpen_setReadBuf]
    exact h.closed hc

theorem Piped.closeRead {d e : Side} {conn : Connection} {log : List Call} (h : Piped e conn log) :
    Piped e (conn.closeRead d) log where
  run := by simpa [pipeOf] using h.run
  closed := by
    intro hc
    rw [Connection.writeClosed_closeRead] at hc
    rcases d.eq_or_eq_other e with rfl | rfl
    · simp
    · rw [Connection.readOpen_closeRead_of_ne _ _ _ d.other_ne]
      exact h.closed hc

theorem receiveStage_relaying (d : Side) (events : Events) (ans : Answers) :
    Triple
      (fun conn log => (Relaying conn log ∧ (events.epollin = true → conn.readOpen d = true)) ∧
        ans.Fit d conn)
      (receiveStage d events ans.recv) (fun _ conn log => ∀ e, Piped e conn log) := by
  rintro conn log ⟨⟨⟨hf,hp⟩,hin⟩,hrecv,-⟩ e
  simp only [receiveStage]
  by_cases hi : events.epollin = true
  · have hset : Piped e (conn.setReadBuf d (receiveIntoBuffer d (conn.readBuf d) ans.recv).2.1)
        (log ++ (receiveIntoBuffer d (conn.readBuf d) ans.recv).2.2) := by
      rcases d.eq_or_eq_other e with rfl | rfl
      · exact (hp _).receive hf _ (hin hi) hrecv
      · exact (hp d.other).frame (receive_moves_of_ne d.ne_other _ _) (by simp) (by simp)
    rw [if_pos hi]
    split_ifs
    · exact hset
    · exact hset.closeRead
    · exact hset
  · rw [if_neg hi]
    simpa using hp e

theorem flushStage_relaying (d : Side) (events : Events) (a : SendResult) :
    Triple (fun conn log => Relaying conn log ∧ a.Fits (bufferPending (conn.readBuf d.other)))
      (flushStage d events a) (fun _ conn log => ∀ e, Piped e conn log) := by
  rintro conn log ⟨⟨hf,hp⟩,ha⟩ e
  simp only [flushStage]
  by_cases ho : events.epollout = true
  · rw [if_pos ho]
    rcases d.other.eq_or_eq_other e with rfl | rfl
    · exact (hp d.other).flush hf d ha
    · rw [Side.other_other]
      exact (hp d).frame (flush_moves_of_ne d.ne_other _ _) (by simp) (by simp)
  · rw [if_neg ho]
    simpa using hp e

theorem hangupStage_relaying (d : Side) (events : Events) : Keeps Relaying (hangupStage d events) := by
  refine fun conn log h => ⟨hangupStage_faithful d events conn log h.1,fun e => ?_⟩
  simp only [hangupStage]
  split_ifs
  · simpa using h.2 e
  · simpa using (h.2 e).closeRead
  · simpa using h.2 e

/-- The relay's `shutdown` ends the pipe of `d`, which is drained at that moment. -/
theorem shutdownStage_relaying (d : Side) : Keeps Relaying (shutdownStage d) := by
  refine fun conn log h => ⟨shutdownStage_faithful d conn log h.1,fun e => ?_⟩
  simp only [shutdownStage]
  split_ifs with hc
  · simp only [Bool.and_eq_true,Bool.not_eq_true'] at hc
    obtain ⟨⟨hr,he⟩,hw⟩ := hc
    rcases d.eq_or_eq_other e with rfl | rfl
    · apply (h.2 _).extend
      · have hheld := h.1.held_eq e
        rw [((h.1.wf e).bufferEmpty_iff).mp he] at hheld
        simp only [moves,Call.move,List.filterMap_cons,if_true,List.filterMap_nil,Machine.run_cons]
        rw [show (Pipe.machine Byte forwardBufferSize).step = Pipe.step forwardBufferSize from rfl,
          Pipe.step_finish.mpr ⟨⟨hw,hheld⟩,rfl⟩]
        simp [pipeOf,receivedFrom,sentTo,Call.received,Call.sent]
      · intro _
        rw [Connection.readOpen_closeWrite]
        exact hr
    · apply (h.2 _).frame
      · simp [moves,Call.move,d.other_ne]
      · rw [Side.other_other,Connection.writeClosed_closeWrite_of_ne _ _ _ d.ne_other]
      · simp
  · simpa using h.2 e

theorem updateConnectionEvents_relaying (ans : Answers) :
    Keeps Relaying (updateConnectionEvents ans) := by
  have hmod : ∀ (d : Side) (events : Events) (ok : Bool),
      Keeps Relaying (epollModify d events ok) := by
    refine fun d events ok conn log h =>
      ⟨epollModify_faithful d (fun _ => events) ok conn log h.1,fun e => (h.2 e).frame ?_ rfl id⟩
    simp [epollModify,moves,Call.move]
  exact fun conn log h => (hmod _ _ _).andThen (hmod _ _ _) conn log h

/-- An event whose `EPOLLIN` was reported for an open side keeps both refinements. -/
theorem processEvent_relaying (d : Side) (events : Events) (ans : Answers) :
    Triple
      (fun conn log => (Relaying conn log ∧ (events.epollin = true → conn.readOpen d = true)) ∧
        ans.Fit d conn)
      (processEvent d events ans) (fun _ conn log => Relaying conn log) := by
  have htail : Keeps Relaying ((hangupStage d events).andThen
      ((shutdownStage d).andThen (updateConnectionEvents ans))) :=
    (hangupStage_relaying d events).andThen
      ((shutdownStage_relaying d).andThen (updateConnectionEvents_relaying ans))
  have hflush : Triple
      (fun conn log => Relaying conn log ∧ ans.send.Fits (bufferPending (conn.readBuf d.other)))
      (flushStage d events ans.send) (fun _ conn log => Relaying conn log) :=
    ((flushStage_faithful d events ans.send).and (flushStage_relaying d events ans.send)).conseq
      (fun _ _ h => ⟨⟨h.1.1,h.2⟩,h⟩) (fun _ _ _ h => h)
  have hreceive := ((receiveStage_faithful d events ans).and
    (receiveStage_relaying d events ans)).conseq
      (fun _ _ h => ⟨⟨h.1.1.1,h.2⟩,h⟩)
      (fun _ conn log h => (⟨⟨h.1.1,h.2⟩,h.1.2⟩ : Relaying conn log ∧
        ans.send.Fits (bufferPending (conn.readBuf d.other))))
  exact hreceive.seq (fun _ _ _ _ h => h.1) (hflush.seq (fun _ _ _ _ h => h) htail)

/-- Unless the code reports failure, the kernel has the wanted interest of both endpoints, each
by a `MOD` call in this log. -/
def Armed (code : ℤ) (conn : Connection) (log : List Call) : Prop :=
  0 ≤ code → ∀ d, registered log d = wantedEvents conn d ∧
    .epollCtl .mod d (wantedEvents conn d) true ∈ log

theorem updateConnectionEvents_armed (ans : Answers) :
    Triple (fun _ _ => True) (updateConnectionEvents ans) Armed := by
  intro conn log _ hc e
  cases hm : ans.modClient <;> cases hs : ans.modServer <;>
    simp only [updateConnectionEvents,Stage.andThen,epollModify,hm,hs] at hc ⊢
  case true.true => cases e <;> simp [registered,Call.rearm]
  all_goals simp at hc

theorem processEvent_armed (d : Side) (events : Events) (ans : Answers) :
    Triple (fun _ _ => True) (processEvent d events ans) Armed := by
  have hfail : ∀ c conn log, c < 0 → Armed c conn log := fun _ _ _ hc hn => absurd hn (not_le.mpr hc)
  exact ((((updateConnectionEvents_armed ans).last hfail).last hfail).last hfail).last hfail

end NetLab.Accelerator
