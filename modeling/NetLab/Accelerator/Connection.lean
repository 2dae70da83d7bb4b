import NetLab.Foundation.Stage
import NetLab.Accelerator.Buffer

/-! The split connection and its two event handlers. `process_client_event` and
`process_server_event` mirror each other, so both are one handler applied to a side. -/
namespace NetLab.Accelerator

open Stage

structure Connection where
  c2s : IoBuffer
  s2c : IoBuffer
  clientReadOpen : Bool
  serverReadOpen : Bool
  clientWriteClosed : Bool
  serverWriteClosed : Bool

namespace Connection

/-- The buffer filled from side `d`: `c2s` for the client and `s2c` for the server. -/
def readBuf (conn : Connection) : Side → IoBuffer
  | .client => conn.c2s
  | .server => conn.s2c

def readOpen (conn : Connection) : Side → Bool
  | .client => conn.clientReadOpen
  | .server => conn.serverReadOpen

def writeClosed (conn : Connection) : Side → Bool
  | .client => conn.clientWriteClosed
  | .server => conn.serverWriteClosed

def setReadBuf (conn : Connection) (d : Side) (buf : IoBuffer) : Connection :=
  match d with
  | .client => { conn with c2s := buf }
  | .server => { conn with s2c := buf }

/-- `conn->client_read_open = 0` or `conn->server_read_open = 0`. -/
def closeRead (conn : Connection) (d : Side) : Connection :=
  match d with
  | .client => { conn with clientReadOpen := false }
  | .server => { conn with serverReadOpen := false }

/-- `conn->client_write_closed = 1` or `conn->server_write_closed = 1`. -/
def closeWrite (conn : Connection) (d : Side) : Connection :=
  match d with
  | .client => { conn with clientWriteClosed := true }
  | .server => { conn with serverWriteClosed := true }

section Fields

variable (conn : Connection) (d e : Side) (buf : IoBuffer)

@[simp] theorem readBuf_setReadBuf_self : (conn.setReadBuf d buf).readBuf d = buf := by
  cases d <;> rfl

theorem readBuf_setReadBuf_of_ne (h : e ≠ d) : (conn.setReadBuf d buf).readBuf e = conn.readBuf e := by
  cases d <;> cases e <;> first | rfl | contradiction

@[simp] theorem readOpen_setReadBuf : (conn.setReadBuf d buf).readOpen e = conn.readOpen e := by
  cases d <;> cases e <;> rfl

@[simp] theorem writeClosed_setReadBuf :
    (conn.setReadBuf d buf).writeClosed e = conn.writeClosed e := by
  cases d <;> cases e <;> rfl

@[simp] theorem readBuf_closeRead : (conn.closeRead d).readBuf e = conn.readBuf e := by
  cases d <;> cases e <;> rfl

@[simp] theorem readOpen_closeRead_self : (conn.closeRead d).readOpen d = false := by
  cases d <;> rfl

theorem readOpen_closeRead_of_ne (h : e ≠ d) : (conn.closeRead d).readOpen e = conn.readOpen e := by
  cases d <;> cases e <;> first | rfl | contradiction

@[simp] theorem writeClosed_closeRead : (conn.closeRead d).writeClosed e = conn.writeClosed e := by
  cases d <;> cases e <;> rfl

@[simp] theorem readBuf_closeWrite : (conn.closeWrite d).readBuf e = conn.readBuf e := by
  cases d <;> cases e <;> rfl

@[simp] theorem readOpen_closeWrite : (conn.closeWrite d).readOpen e = conn.readOpen e := by
  cases d <;> cases e <;> rfl

@[simp] theorem writeClosed_closeWrite_self : (conn.closeWrite d).writeClosed d = true := by
  cases d <;> rfl

theorem writeClosed_closeWrite_of_ne (h : e ≠ d) :
    (conn.closeWrite d).writeClosed e = conn.writeClosed e := by
  cases d <;> cases e <;> first | rfl | contradiction

variable {conn d} in
/-- A side that is closed for reading already. -/
theorem closeRead_eq_self (h : conn.readOpen d = false) : conn.closeRead d = conn := by
  obtain ⟨c2s,s2c,clientOpen,serverOpen,clientClosed,serverClosed⟩ := conn
  cases d with
  | client =>
    obtain rfl : clientOpen = false := h
    rfl
  | server =>
    obtain rfl : serverOpen = false := h
    rfl

end Fields

/-- What `create_connection` leaves in the object when every call succeeds. -/
def initial : Connection := ⟨IoBuffer.zero,IoBuffer.zero,true,true,false,false⟩

@[simp] theorem readBuf_initial (d : Side) : initial.readBuf d = IoBuffer.zero := by cases d <;> rfl
@[simp] theorem readOpen_initial (d : Side) : initial.readOpen d = true := by cases d <;> rfl
@[simp] theorem writeClosed_initial (d : Side) : initial.writeClosed d = false := by cases d <;> rfl

end Connection

/-- The answers of the kernel to the calls one event may make. -/
structure Answers where
  recv : RecvResult
  send : SendResult
  modClient : Bool
  modServer : Bool

/-- `client_events` and `server_events` as `update_connection_events` computes them. -/
def wantedEvents (conn : Connection) (d : Side) : Events where
  epollin := conn.readOpen d &&
    (decide (0 < bufferSpace (conn.readBuf d)) || decide (0 < (conn.readBuf d).start))
  epollout := !bufferEmpty (conn.readBuf d.other)
  epollrdhup := true

def epollModify (endpoint : Side) (events : Events) (ok : Bool) : Stage Connection Call := fun conn =>
  ⟨if ok then 0 else -1,conn,[.epollCtl .mod endpoint events ok]⟩

def updateConnectionEvents (ans : Answers) : Stage Connection Call := fun conn =>
  let clientEvents := wantedEvents conn .client
  let serverEvents := wantedEvents conn .server
  (epollModify .client clientEvents ans.modClient).andThen
    (epollModify .server serverEvents ans.modServer) conn

/-- `events & EPOLLIN`: receive from `d` and note an orderly end of its stream. -/
def receiveStage (d : Side) (events : Events) (answer : RecvResult) : Stage Connection Call := fun conn =>
  if events.epollin then
    let r := receiveIntoBuffer d (conn.readBuf d) answer
    let conn := conn.setReadBuf d r.2.1
    if r.1 < 0 then ⟨-1,conn,r.2.2⟩
    else if r.1 = 2 then ⟨0,conn.closeRead d,r.2.2⟩
    else ⟨0,conn,r.2.2⟩
  else ⟨0,conn,[]⟩

/-- `events & EPOLLOUT`: send to `d` what came from the other side. -/
def flushStage (d : Side) (events : Events) (answer : SendResult) : Stage Connection Call := fun conn =>
  if events.epollout then
    let r := flushBuffer d (conn.readBuf d.other) answer
    ⟨if r.1 < 0 then -1 else 0,conn.setReadBuf d.other r.2.1,r.2.2⟩
  else ⟨0,conn,[]⟩

/-- `EPOLLERR` and `EPOLLHUP` fail the event before `EPOLLRDHUP` is looked at. -/
def hangupStage (d : Side) (events : Events) : Stage Connection Call := fun conn =>
  if events.epollerr || events.epollhup then ⟨-1,conn,[]⟩
  else if events.epollrdhup then ⟨0,conn.closeRead d,[]⟩
  else ⟨0,conn,[]⟩

/-- Pass the end of the stream of `d` on once its buffer has drained. -/
def shutdownStage (d : Side) : Stage Connection Call := fun conn =>
  if !conn.readOpen d && bufferEmpty (conn.readBuf d) && !conn.writeClosed d.other then
    ⟨0,conn.closeWrite d.other,[.shutdown d.other]⟩
  else ⟨0,conn,[]⟩

def processEvent (d : Side) (events : Events) (ans : Answers) : Stage Connection Call :=
  (receiveStage d events ans.recv).andThen
    ((flushStage d events ans.send).andThen
      ((hangupStage d events).andThen
        ((shutdownStage d).andThen (updateConnectionEvents ans))))

def processClientEvent (events : Events) (ans : Answers) : Stage Connection Call :=
  processEvent .client events ans

def processServerEvent (events : Events) (ans : Answers) : Stage Connection Call :=
  processEvent .server events ans

def connectionFinished (conn : Connection) : Bool :=
  !conn.clientReadOpen && !conn.serverReadOpen && bufferEmpty conn.c2s && bufferEmpty conn.s2c

theorem connectionFinished_iff (conn : Connection) :
    connectionFinished conn = true ↔
      ∀ d, conn.readOpen d = false ∧ bufferEmpty (conn.readBuf d) = true := by
  constructor
  · intro h d
    simp only [connectionFinished,Bool.and_eq_true,Bool.not_eq_true'] at h
    cases d <;> simp [Connection.readOpen,Connection.readBuf,h]
  · intro h
    have hc := h .client
    have hs := h .server
    simp only [Connection.readOpen,Connection.readBuf] at hc hs
    simp [connectionFinished,hc,hs]

end NetLab.Accelerator
