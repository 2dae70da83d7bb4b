import NetLab.Foundation.Inventory
import NetLab.Accelerator.Batch

/-! The relay as a process: `main` up to its loop, the accept loop with `create_remote_socket` and
`create_connection`, the events of the connections, and a failing `epoll_wait`, with every
descriptor that is opened, used and closed on the way. -/
namespace NetLab.Accelerator

/-- What the process holds: descriptors, the interest of an epoll instance in a descriptor, and
connection objects. -/
inductive Resource
  | fd (n : ℕ)
  | watch (epoll n : ℕ)
  | object (id : ℕ)
deriving DecidableEq, Repr

def Resource.needs : Resource → Finset Resource
  | .fd _ | .object _ => ∅
  | .watch epoll n => {.fd epoll,.fd n}

abbrev Deeds : Type := List (Deed Resource)

/-- `client.fd` and `server.fd` of a connection object. -/
structure Endpoints where
  client : ℕ
  server : ℕ
deriving DecidableEq, Repr

def Endpoints.fd (ends : Endpoints) : Side → ℕ
  | .client => ends.client
  | .server => ends.server

/-! ### Calls on one descriptor -/

/-- Two calls on a descriptor; the second is made when the first succeeds. -/
def callTwice (fd : ℕ) (first second : Bool) : Deeds × Bool :=
  if first then ([.use (.fd fd),.use (.fd fd)],second) else ([.use (.fd fd)],false)

/-- `F_GETFL` and `F_SETFL`. -/
def setNonblocking (fd : ℕ) (getfl setfl : Bool) : Deeds × Bool := callTwice fd getfl setfl

/-- `SO_RCVBUF` and `SO_SNDBUF`. -/
def tuneSocketBuffers (fd : ℕ) (rcvbuf sndbuf : Bool) : Deeds × Bool := callTwice fd rcvbuf sndbuf

/-- `epoll_ctl` with `EPOLL_CTL_ADD`. -/
def epollAdd (epoll fd : ℕ) (ok : Bool) : Deeds :=
  [.use (.fd epoll),.use (.fd fd)] ++ if ok then [.acquire (.watch epoll fd)] else []

/-- `epoll_ctl` with `EPOLL_CTL_DEL`, which fails where `EPOLL_CTL_ADD` has failed. -/
def epollDel (epoll fd : ℕ) (added : Bool) : Deeds :=
  [.use (.fd epoll),.use (.fd fd)] ++ if added then [.release (.watch epoll fd)] else []

def destroyConnection (epoll id : ℕ) (ends : Endpoints) (added : Side → Bool) : Deeds :=
  .use (.object id) ::
    epollDel epoll ends.client (added .client) ++ .release (.fd ends.client) ::
    epollDel epoll ends.server (added .server) ++ [.release (.fd ends.server),.release (.object id)]

/-! ### New connections -/

structure RemoteAnswers where
  socket : Option ℕ
  rcvbuf : Bool
  sndbuf : Bool
  pton : Bool
  connect : Bool
  getfl : Bool
  setfl : Bool

def createRemoteSocket (ans : RemoteAnswers) : Deeds × Option ℕ :=
  match ans.socket with
  | none => ([],none)
  | some fd =>
    let tuned := tuneSocketBuffers fd ans.rcvbuf ans.sndbuf
    let nonblocking := setNonblocking fd ans.getfl ans.setfl
    let opened := .acquire (.fd fd) :: tuned.1
    let connected := opened ++ .use (.fd fd) :: nonblocking.1
    if !tuned.2 then (opened ++ [.release (.fd fd)],none)
    else if !ans.pton then (opened ++ [.release (.fd fd)],none)
    else if !ans.connect then (opened ++ [.use (.fd fd),.release (.fd fd)],none)
    else if !nonblocking.2 then (connected ++ [.release (.fd fd)],none)
    else (connected,some fd)

/-- What the calls answer from `accept` on. -/
structure AcceptAnswers where
  clientFd : ℕ
  remote : RemoteAnswers
  rcvbuf : Bool
  sndbuf : Bool
  getfl : Bool
  setfl : Bool
  allocated : Bool
  addClient : Bool
  addServer : Bool

/-- `create_connection` once it has both sockets, for the object that gets number `id`. -/
def createObject (epoll id : ℕ) (ends : Endpoints) (ans : AcceptAnswers) :
    Deeds × Option Endpoints :=
  let tuned := tuneSocketBuffers ends.client ans.rcvbuf ans.sndbuf
  let nonblocking := setNonblocking ends.client ans.getfl ans.setfl
  let closeBoth : Deeds := [.release (.fd ends.server),.release (.fd ends.client)]
  if !tuned.2 then (tuned.1 ++ closeBoth,none)
  else if !nonblocking.2 then (tuned.1 ++ nonblocking.1 ++ closeBoth,none)
  else if !ans.allocated then (tuned.1 ++ nonblocking.1 ++ closeBoth,none)
  else
    let allocated := tuned.1 ++ nonblocking.1 ++ .acquire (.object id) ::
      epollAdd epoll ends.client ans.addClient
    let added := allocated ++ epollAdd epoll ends.server ans.addServer
    if !ans.addClient then (allocated ++ destroyConnection epoll id ends fun _ => false,none)
    else if !ans.addServer then (added ++ destroyConnection epoll id ends (· = .client),none)
    else (added,some ends)

def createDeeds (epoll id : ℕ) (ans : AcceptAnswers) : Deeds × Option Endpoints :=
  let remote := createRemoteSocket ans.remote
  match remote.2 with
  | none => (remote.1 ++ [.release (.fd ans.clientFd)],none)
  | some serverFd =>
    let object := createObject epoll id ⟨ans.clientFd,serverFd⟩ ans
    (remote.1 ++ object.1,object.2)

/-- Which calls of `create_connection` succeed. -/
def AcceptAnswers.create (ans : AcceptAnswers) : CreateAnswers :=
  ⟨(createRemoteSocket ans.remote).2.isSome,ans.rcvbuf && ans.sndbuf,ans.getfl && ans.setfl,
    ans.allocated,ans.addClient,ans.addServer⟩

/-! ### `main` -/

structure StartAnswers where
  socket : Option ℕ
  reuseaddr : Bool
  getfl : Bool
  setfl : Bool
  bind : Bool
  listen : Bool
  epoll : Option ℕ
  add : Bool

/-- `main` from `bind` to its loop, with the listener open and what has been done with it. -/
def startEpoll (fd : ℕ) (opened : Deeds) (ans : StartAnswers) : Deeds × Option (ℕ × ℕ) :=
  let bound := opened ++ [.use (.fd fd)]
  let listening := bound ++ [.use (.fd fd)]
  if !ans.bind then (bound ++ [.release (.fd fd)],none)
  else if !ans.listen then (listening ++ [.release (.fd fd)],none)
  else
    match ans.epoll with
    | none => (listening ++ [.release (.fd fd)],none)
    | some epoll =>
      let added := listening ++ .acquire (.fd epoll) :: epollAdd epoll fd ans.add
      if !ans.add then (added ++ [.release (.fd epoll),.release (.fd fd)],none)
      else (added,some (fd,epoll))

/-- `main` up to its loop; `none` is a return with `EXIT_FAILURE`. -/
def start (ans : StartAnswers) : Deeds × Option (ℕ × ℕ) :=
  match ans.socket with
  | none => ([],none)
  | some fd =>
    let nonblocking := setNonblocking fd ans.getfl ans.setfl
    let opened : Deeds := [.acquire (.fd fd),.use (.fd fd)]
    if !ans.reuseaddr then (opened ++ [.release (.fd fd)],none)
    else if !nonblocking.2 then (opened ++ nonblocking.1 ++ [.release (.fd fd)],none)
    else startEpoll fd (opened ++ nonblocking.1) ans

inductive Phase
  | begun
  | looping
  | returned
deriving DecidableEq, Repr

structure Process where
  phase : Phase
  listenFd : ℕ
  epollFd : ℕ
  heap : Heap
  ends : ℕ → Endpoints
  log : Deeds

/-- A step of the process: `main` up to its loop; an `epoll_wait` that returns a batch; an `accept`
that returns no connection, or one; an entry for an endpoint; an `epoll_wait` that fails. -/
inductive ProcessLabel
  | start (ans : StartAnswers)
  | epollWait
  | acceptFails
  | accept (ans : AcceptAnswers)
  | event (id : ℕ) (side : Side) (events : Events) (ans : Answers)
  | epollWaitFails

/-- What a call made for a connection does to its descriptors. -/
def callDeeds (epoll : ℕ) (ends : Endpoints) : Call → Deeds
  | .recv d _ _ _ | .send d _ _ | .shutdown d => [.use (.fd (ends.fd d))]
  | .epollCtl .mod d _ _ => [.use (.fd epoll),.use (.watch epoll (ends.fd d))]
  | .epollCtl .add d _ ok => epollAdd epoll (ends.fd d) ok
  | .destroy => []

/-- The interest in a socket, where `epoll_ctl` has added it. -/
def interest (epoll fd : ℕ) (added : Bool) : Finset Resource :=
  if added then {.watch epoll fd} else ∅

/-- A connection object, its sockets, and the interest in them. -/
def parts (epoll id : ℕ) (ends : Endpoints) (added : Side → Bool) : Finset Resource :=
  interest epoll ends.client (added .client) ∪ insert (.fd ends.client)
    (interest epoll ends.server (added .server) ∪ insert (.fd ends.server) {.object id})

/-- What the loop has open besides connections. -/
def loopFds (listenFd epollFd : ℕ) : Finset Resource :=
  {.fd listenFd,.fd epollFd,.watch epollFd listenFd}

namespace Process

/-- The objects that are allocated. -/
def live (p : Process) : Finset ℕ :=
  (Finset.range p.heap.next).filter fun id => (p.heap.conns id).isSome = true

/-- `accept`, `socket` and `epoll_create1` answer with descriptors that are not open. -/
def Closed (p : Process) (n : ℕ) : Prop := Shut p.log (.fd n)

instance (p : Process) (n : ℕ) : Decidable (p.Closed n) := inferInstanceAs (Decidable (_ = _))

def Fresh (p : Process) (ans : AcceptAnswers) : Prop :=
  p.Closed ans.clientFd ∧ ∀ fd ∈ ans.remote.socket, fd ≠ ans.clientFd ∧ p.Closed fd

instance (p : Process) (ans : AcceptAnswers) : Decidable (p.Fresh ans) :=
  inferInstanceAs (Decidable (_ ∧ _))

/-- The kernel drops what an epoll instance watches when it is closed. -/
def dropWatches (p : Process) (id : ℕ) : Deeds :=
  if (p.heap.conns id).isSome then
    [.release (.watch p.epollFd (p.ends id).client),.release (.watch p.epollFd (p.ends id).server)]
  else []

def step (p : Process) : ProcessLabel → Option Process
  | .start ans =>
    if p.phase = .begun ∧ (ans.epoll = none ∨ ans.epoll ≠ ans.socket) then
      match start ans with
      | (deeds,none) => some { p with phase := .returned, log := p.log ++ deeds }
      | (deeds,some (listenFd,epollFd)) =>
        some { p with phase := .looping, listenFd, epollFd, log := p.log ++ deeds }
    else none
  | .epollWait =>
    if p.phase = .looping then some { p with log := p.log ++ [.use (.fd p.epollFd)] } else none
  | .acceptFails =>
    if p.phase = .looping then some { p with log := p.log ++ [.use (.fd p.listenFd)] } else none
  | .accept ans =>
    if p.phase = .looping ∧ p.Fresh ans then
      let created := createDeeds p.epollFd p.heap.next ans
      some { p with
        heap := p.heap.create ans.create
        ends := match created.2 with
          | none => p.ends
          | some ends => Function.update p.ends p.heap.next ends
        log := p.log ++ [.use (.fd p.listenFd),.acquire (.fd ans.clientFd)] ++ created.1 }
    else none
  | .event id d events ans =>
    match p.heap.conns id with
    -- `endpoint->conn` of an object that has been freed.
    | none => none
    | some s =>
      if p.phase = .looping ∧ ans.Fit d s.conn then
        (handleEntry p.heap (.endpoint id d events ans)).map fun heap =>
          { p with
            heap
            log := p.log ++ .use (.object id) ::
              (processEvent d events ans s.conn).calls.flatMap (callDeeds p.epollFd (p.ends id)) ++
              if (heap.conns id).isSome then []
              else destroyConnection p.epollFd id (p.ends id) fun _ => true }
      else none
  | .epollWaitFails =>
    if p.phase = .looping then
      some { p with
        phase := .returned
        log := p.log ++ .use (.fd p.epollFd) :: (List.range p.heap.next).flatMap p.dropWatches ++
          [.release (.watch p.epollFd p.listenFd),.release (.fd p.epollFd),
            .release (.fd p.listenFd)] }
    else none

/-- What a live connection stands for. -/
def connection (p : Process) (watched : Bool) (id : ℕ) : Finset Resource :=
  parts p.epollFd id (p.ends id) fun _ => watched

/-- What is open: the listener and the epoll instance in the loop, and the live connections. -/
def holding (p : Process) : Finset Resource :=
  match p.phase with
  | .begun => ∅
  | .looping => loopFds p.listenFd p.epollFd ∪ p.live.biUnion (p.connection true)
  | .returned => p.live.biUnion (p.connection false)

end Process

def process : Machine Process ProcessLabel where
  init p := p.phase = .begun ∧ p.heap = Heap.empty ∧ p.log = []
  step := Process.step

end NetLab.Accelerator
