import NetLab.Accelerator.Interest
import NetLab.Accelerator.Ending

/-! One split connection on two level-triggered TCP sockets without errors. The peers send what
they like and end their streams when they like; the kernel reports exactly what holds at the
moment of `epoll_wait` among the registered bits, and `EPOLLHUP` once both ways are shut down. -/
namespace NetLab.Accelerator

open Stage

/-- One socket as the kernel sees it. -/
structure Socket where
  /-- Everything the peer has sent so far. -/
  arrived : List Byte
  /-- The part of it that no `recv` has taken yet. -/
  unread : List Byte
  /-- The peer's FIN has arrived, so `arrived` is its whole stream. -/
  fin : Bool

structure Wired where
  polled : Polled
  socket : Side → Socket

def Wired.initial : Wired := ⟨⟨Session.created,[]⟩,fun _ => ⟨[],[],false⟩⟩

inductive WireLabel
  | arrive (d : Side) (bytes : List Byte)
  | finish (d : Side)
  | wait (batch : List (Side × Events))
  | handle (answers : Answers)

/-- What level-triggered polling reports for endpoint `d`; only writability is left open. -/
structure Reports (w : Wired) (d : Side) (events : Events) : Prop where
  epollin : events.epollin = ((registered w.polled.session.log d).epollin &&
    (!(w.socket d).unread.isEmpty || (w.socket d).fin))
  epollout : events.epollout = true → (registered w.polled.session.log d).epollout = true
  epollrdhup : events.epollrdhup =
    ((registered w.polled.session.log d).epollrdhup && (w.socket d).fin)
  epollhup : events.epollhup =
    ((w.socket d).fin && decide (.shutdown d ∈ w.polled.session.log))
  epollerr : events.epollerr = false
  some_event : events ≠ {}

instance (w : Wired) (d : Side) (events : Events) : Decidable (Reports w d events) :=
  decidable_of_iff (_ ∧ _ ∧ _ ∧ _ ∧ _ ∧ _)
    ⟨fun ⟨a,b,c,e,f,g⟩ => ⟨a,b,c,e,f,g⟩,fun ⟨a,b,c,e,f,g⟩ => ⟨a,b,c,e,f,g⟩⟩

/-- `recv` takes an initial part of the unread bytes and answers 0 only at the end of the stream;
neither it nor `send` or `epoll_ctl` fails. -/
def Answers.Orderly (ans : Answers) (socket : Socket) : Prop :=
  (match ans.recv with
    | .data bytes => bytes <+: socket.unread
    | .fin => socket.unread = [] ∧ socket.fin = true
    | .wouldBlock => True
    | .interrupted => True
    | .error => False) ∧
  ans.send ≠ .error ∧ ans.modClient = true ∧ ans.modServer = true

instance (ans : Answers) (socket : Socket) : Decidable (ans.Orderly socket) := by
  unfold Answers.Orderly
  cases ans.recv <;> infer_instance

/-- The bytes that handling an event takes from its socket. -/
def taken (d : Side) (events : Events) (ans : Answers) (conn : Connection) : List Byte :=
  receivedFrom d (processEvent d events ans conn).calls

def Wired.step (w : Wired) : WireLabel → Option Wired
  | .arrive d bytes =>
    if (w.socket d).fin = false then
      some { w with socket := Function.update w.socket d { w.socket d with
        arrived := (w.socket d).arrived ++ bytes, unread := (w.socket d).unread ++ bytes } }
    else none
  | .finish d =>
    if (w.socket d).fin = false then
      some { w with socket := Function.update w.socket d { w.socket d with fin := true } }
    else none
  | .wait batch =>
    if ∀ e ∈ batch, Reports w e.1 e.2 then
      (w.polled.step (.wait batch)).map (fun p => { w with polled := p })
    else none
  | .handle ans =>
    match w.polled.batch with
    | [] => none
    | e::_ =>
      if ans.Orderly (w.socket e.1) then
        (w.polled.step (.handle ans)).map (fun p => ⟨p,Function.update w.socket e.1
          { w.socket e.1 with
            unread := (w.socket e.1).unread.drop (taken e.1 e.2 ans w.polled.session.conn).length }⟩)
      else none

def wired : Machine Wired WireLabel where
  init w := w = Wired.initial
  step := Wired.step

theorem Wired.step_handle {w v : Wired} {ans : Answers} (h : w.step (.handle ans) = some v) :
    ∃ e rest, w.polled.batch = e::rest ∧ ans.Orderly (w.socket e.1) ∧
      w.polled.session.live = true ∧ ans.Fit e.1 w.polled.session.conn ∧
      v = ⟨⟨w.polled.session.handle e.1 e.2 ans,rest⟩,Function.update w.socket e.1
        { w.socket e.1 with
          unread := (w.socket e.1).unread.drop (taken e.1 e.2 ans w.polled.session.conn).length }⟩ := by
  cases hb : w.polled.batch with
  | nil => simp [Wired.step,hb] at h
  | cons e rest =>
    simp only [Wired.step,hb] at h
    split_ifs at h with hord
    obtain ⟨p,hp,rfl⟩ := Option.map_eq_some_iff.mp h
    obtain ⟨e',rest',hb',hlive,hfit,rfl⟩ := Polled.step_handle hp
    obtain ⟨rfl,rfl⟩ : e = e' ∧ rest = rest' := by simpa [hb] using hb'
    exact ⟨e,rest,rfl,hord,hlive,hfit,rfl⟩

theorem Wired.step_wait {w v : Wired} {batch : List (Side × Events)}
    (h : w.step (.wait batch) = some v) :
    (∀ e ∈ batch, Reports w e.1 e.2) ∧
      w.polled.step (.wait batch) = some { w.polled with batch := batch } ∧
      v = { w with polled := { w.polled with batch := batch } } := by
  simp only [Wired.step] at h
  split_ifs at h with hrep
  obtain ⟨p,hp,rfl⟩ := Option.map_eq_some_iff.mp h
  obtain ⟨hguard,rfl⟩ := Polled.step_wait.mp hp
  exact ⟨hrep,hp,rfl⟩

theorem createdSession_init : polled.init ⟨Session.created,[]⟩ :=
  ⟨⟨⟨true,true,true,true,true,true⟩,rfl⟩,rfl⟩

/-- Forgetting the sockets leaves a polled run. -/
theorem wired_polled {ok : Wired → WireLabel → Prop} {w : Wired} (h : wired.ReachableUnder ok w) :
    polled.Reachable w.polled := by
  refine h.project (N := polled) Wired.polled ?_ ?_
  · rintro w rfl
    exact createdSession_init
  · rintro w a v - - hv
    change w.step a = some v at hv
    cases a with
    | arrive d bytes =>
      obtain ⟨-,rfl⟩ := guarded_eq_some.mp hv
      exact Or.inl rfl
    | finish d =>
      obtain ⟨-,rfl⟩ := guarded_eq_some.mp hv
      exact Or.inl rfl
    | wait batch =>
      obtain ⟨-,hp,rfl⟩ := Wired.step_wait hv
      exact Or.inr ⟨.wait batch,trivial,hp⟩
    | handle ans =>
      obtain ⟨e,rest,hb,-,hlive,hfit,rfl⟩ := Wired.step_handle hv
      refine Or.inr ⟨.handle ans,trivial,?_⟩
      change Polled.step w.polled (.handle ans) = _
      simp only [Polled.step,hb]
      exact if_pos ⟨hlive,hfit⟩

end NetLab.Accelerator
