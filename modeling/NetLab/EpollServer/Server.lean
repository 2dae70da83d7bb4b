import NetLab.Foundation.Machine
import NetLab.Foundation.Offers
import NetLab.Foundation.Text

/-! The echo server: what it calls for an event of a client, and its main loop over the descriptors
that polling reports. It keeps nothing about a connection, so a connection here is what has come in
from the client and the calls that the server has made. -/
namespace NetLab.EpollServer

def maxEvents : ℕ := 1024
def bufSize : ℕ := 4096

structure Events where
  epollin : Bool := false
  epollrdhup : Bool := false
  epollhup : Bool := false
  epollerr : Bool := false
deriving DecidableEq

def Events.hangs (e : Events) : Bool := e.epollrdhup || e.epollhup || e.epollerr

/-- What `read` returns; `wouldBlock` is -1 with `EAGAIN` or `EWOULDBLOCK`. -/
inductive ReadAnswer
  | data (bytes : Bytes)
  | fin
  | wouldBlock
  | error
deriving DecidableEq

inductive WriteAnswer
  | count (n : ℕ)
  | wouldBlock
  | error
deriving DecidableEq

/-- The system calls on a client's descriptor. -/
inductive Call
  | read (answer : ReadAnswer)
  | write (bytes : Bytes) (answer : WriteAnswer)
  | epollDel
  | close
deriving DecidableEq

/-- The calls for an event of a client. -/
def handleClient (events : Events) (read : ReadAnswer) (write : WriteAnswer) : List Call :=
  if events.hangs then [.epollDel,.close]
  else
    .read read::
      match read with
      | .data bytes =>
        .write bytes write::
          match write with
          | .error => [.epollDel,.close]
          | _ => []
      | .fin => [.epollDel,.close]
      | .wouldBlock => []
      | .error => [.epollDel,.close]

def Call.data : Call → Option Bytes
  | .read (.data bytes) => some bytes
  | _ => none

/-- What `write` was given, and how much of it has been taken. -/
def Call.offer : Call → Option (Offer UInt8)
  | .write bytes (.count n) => some ⟨bytes,n⟩
  | .write bytes _ => some ⟨bytes,0⟩
  | _ => none

structure Connection where
  /-- Everything that the client has sent. -/
  arrived : Bytes
  /-- The client's FIN has arrived, so `arrived` is its whole stream. -/
  fin : Bool
  /-- The calls of the server so far. -/
  calls : List Call

namespace Connection

def accepted : Connection := ⟨[],false,[]⟩

def reads (c : Connection) : List Bytes := c.calls.filterMap Call.data

/-- What the server has read. -/
def received (c : Connection) : Bytes := c.reads.flatten

def unread (c : Connection) : Bytes := c.arrived.drop c.received.length

def writes (c : Connection) : List (Offer UInt8) := c.calls.filterMap Call.offer

/-- What has been written back to the client. -/
def written (c : Connection) : Bytes := kept c.writes

def after (c : Connection) (calls : List Call) : Connection := { c with calls := c.calls ++ calls }

end Connection

/-- A descriptor that `accept` returned, and whether `fcntl` and `epoll_ctl` succeed for it. -/
structure AcceptAnswer where
  fd : ℤ
  nonblocking : Bool
  registers : Bool

/-- The answers to the calls for one entry of `events[]`. -/
structure Answers where
  accepts : List AcceptAnswer := []
  read : ReadAnswer := .wouldBlock
  write : WriteAnswer := .wouldBlock

/-- The process with the connections open under each descriptor and those it has closed, and the
entries of `events[]` that are still to be handled. -/
structure Server where
  listenFd : ℤ
  connections : ℤ → Option Connection
  closed : List Connection
  batch : List (ℤ × Events)

namespace Server

def boot (listenFd : ℤ) : Server := ⟨listenFd,fun _ => none,[],[]⟩

def setConnection (s : Server) (fd : ℤ) (c : Option Connection) : Server :=
  { s with connections := Function.update s.connections fd c }

@[simp] theorem setConnection_connections_self (s : Server) (fd : ℤ) (c : Option Connection) :
    (s.setConnection fd c).connections fd = c := Function.update_self _ _ _

theorem setConnection_connections_of_ne (s : Server) {fd fd' : ℤ} (c : Option Connection)
    (h : fd' ≠ fd) : (s.setConnection fd c).connections fd' = s.connections fd' :=
  Function.update_of_ne h _ _

/-- One round of the `accept` loop; a descriptor that cannot be set up is closed again. -/
def accept (s : Server) (answer : AcceptAnswer) : Server :=
  if !answer.nonblocking then s
  else if !answer.registers then s
  else s.setConnection answer.fd (some Connection.accepted)

def acceptLoop (s : Server) (answers : List AcceptAnswer) : Server := answers.foldl accept s

/-- The connection under `fd` after the calls. -/
def serve (s : Server) (fd : ℤ) (c : Connection) (calls : List Call) : Server :=
  if .close ∈ calls then
    { s.setConnection fd none with closed := s.closed ++ [c.after calls] }
  else s.setConnection fd (some (c.after calls))

/-- The body of the loop over `events[]`. All calls fail on a descriptor that is not open. -/
def handleEvent (s : Server) (e : ℤ × Events) (answers : Answers) : Server :=
  if e.1 = s.listenFd then s.acceptLoop answers.accepts
  else
    match s.connections e.1 with
    | none => s
    | some c => s.serve e.1 c (handleClient e.2 answers.read answers.write)

end Server

/-- `accept` returns unused descriptors. -/
def AcceptsFit : List AcceptAnswer → Server → Prop
  | [],_ => True
  | answer::answers,s => answer.fd ≠ s.listenFd ∧ s.connections answer.fd = none ∧
      AcceptsFit answers (s.accept answer)

/-- `read` takes a first part of what is unread, and returns 0 only at the end of the stream;
`write` takes no more than it is given. -/
def Answers.Fit (answers : Answers) (c : Connection) : Prop :=
  match answers.read with
  | .data bytes => bytes ≠ [] ∧ bytes.length ≤ bufSize ∧ bytes <+: c.unread ∧
      ∀ n, answers.write = .count n → n ≤ bytes.length
  | .fin => c.unread = [] ∧ c.fin = true
  | _ => True

def Answers.Fits (answers : Answers) (s : Server) (e : ℤ × Events) : Prop :=
  if e.1 = s.listenFd then AcceptsFit answers.accepts s
  else ∀ c ∈ s.connections e.1, answers.Fit c

/-- What is reported of a client holds. -/
structure Connection.Reported (c : Connection) (events : Events) : Prop where
  epollin : events.epollin = true → c.unread ≠ [] ∨ c.fin = true
  epollrdhup : events.epollrdhup = true → c.fin = true
  some_event : events ≠ {}

/-- An entry for a registered descriptor. -/
def Server.Reports (s : Server) (e : ℤ × Events) : Prop :=
  e.1 = s.listenFd ∨ ∃ c ∈ s.connections e.1, c.Reported e.2

inductive Label
  | arrive (fd : ℤ) (bytes : Bytes)
  | finish (fd : ℤ)
  | wait (batch : List (ℤ × Events))
  | handle (answers : Answers)

section Decisions

instance decidableAcceptsFit : (answers : List AcceptAnswer) → (s : Server) →
    Decidable (AcceptsFit answers s)
  | [],_ => isTrue trivial
  | answer::answers,s =>
    have : Decidable (AcceptsFit answers (s.accept answer)) := decidableAcceptsFit answers _
    have : Decidable (s.connections answer.fd = none) :=
      decidable_of_iff _ Option.isNone_iff_eq_none
    inferInstanceAs (Decidable (_ ∧ _ ∧ _))

instance (write : WriteAnswer) (k : ℕ) : Decidable (∀ n, write = .count n → n ≤ k) :=
  match write with
  | .count m => decidable_of_iff (m ≤ k) ⟨fun h n hn => by cases hn; exact h,fun h => h m rfl⟩
  | .wouldBlock => isTrue (fun _ hn => by cases hn)
  | .error => isTrue (fun _ hn => by cases hn)

instance (answers : Answers) (c : Connection) : Decidable (answers.Fit c) := by
  unfold Answers.Fit
  split <;> infer_instance

instance (answers : Answers) (s : Server) (e : ℤ × Events) : Decidable (answers.Fits s e) := by
  unfold Answers.Fits
  split <;> infer_instance

instance (c : Connection) (events : Events) : Decidable (c.Reported events) :=
  decidable_of_iff (_ ∧ _ ∧ _) ⟨fun ⟨a,b,d⟩ => ⟨a,b,d⟩,fun ⟨a,b,d⟩ => ⟨a,b,d⟩⟩

instance (s : Server) (e : ℤ × Events) : Decidable (s.Reports e) := by
  unfold Server.Reports
  infer_instance

end Decisions

def Server.step (s : Server) : Label → Option Server
  | .arrive fd bytes =>
    match s.connections fd with
    | none => none
    | some c =>
      if c.fin = false then
        some (s.setConnection fd (some { c with arrived := c.arrived ++ bytes }))
      else none
  | .finish fd =>
    match s.connections fd with
    | none => none
    | some c => if c.fin = false then some (s.setConnection fd (some { c with fin := true })) else none
  | .wait batch =>
    if s.batch = [] ∧ batch.length ≤ maxEvents ∧ (batch.map Prod.fst).Nodup ∧ ∀ e ∈ batch, s.Reports e then
      some { s with batch := batch }
    else none
  | .handle answers =>
    match s.batch with
    | [] => none
    | e::rest =>
      let s := { s with batch := rest }
      if answers.Fits s e then some (s.handleEvent e answers) else none

/-- The server on the connections of its clients, which send what they like. -/
def echo : Machine Server Label where
  init s := ∃ listenFd, s = Server.boot listenFd
  step := Server.step

/-- No socket error: none is reported, and `read` and `write` do not fail. -/
def Smooth (_ : Server) : Label → Prop
  | .arrive _ _ => True
  | .finish _ => True
  | .wait batch => ∀ e ∈ batch, e.2.epollhup = false ∧ e.2.epollerr = false
  | .handle answers => answers.read ≠ .error ∧ answers.write ≠ .error

instance (s : Server) : (a : Label) → Decidable (Smooth s a)
  | .arrive _ _ => isTrue trivial
  | .finish _ => isTrue trivial
  | .wait batch => inferInstanceAs (Decidable (∀ e ∈ batch, _))
  | .handle answers => inferInstanceAs (Decidable (answers.read ≠ .error ∧ answers.write ≠ .error))

end NetLab.EpollServer
