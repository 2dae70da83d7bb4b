import NetLab.Foundation.Lines
import NetLab.Foundation.Machine

/-! The group chat server: its clients, the handling of a line, and the main loop's handling of
one event. Connections are numbered in the order of their `accept`. -/
namespace NetLab.GroupChat

def maxClients : ℕ := 100
def usernameSize : ℕ := 32
def bufferSize : ℕ := 4096

/-- `struct Client`; `inputBuffer` is `input_buffer[0..input_len)` and `username` the C string in
its array. -/
structure Client where
  fd : ℤ
  active : Bool
  loggedIn : Bool
  username : Bytes
  inputBuffer : Bytes

/-- A slot that `memset` has zeroed, with `fd = -1`. -/
def Client.free : Client := ⟨-1,false,false,[],[]⟩

/-- A slot that has just been given a connection. -/
def Client.connected (fd : ℤ) : Client := ⟨fd,true,false,[],[]⟩

abbrev Slot := Fin maxClients

/-- The server process, the connections open under each descriptor, and what it has sent. -/
structure Server where
  clients : Slot → Client
  serverFd : ℤ
  fds : ℤ → Option ℕ
  accepted : ℕ
  sent : List (ℤ × Bytes)

/-- What `snprintf` leaves of a text in a buffer of `size` bytes. -/
def snprintf (size : ℕ) (text : Bytes) : Bytes := text.take (size-1)

/-- `line[strcspn(line,"\r")] = 0` -/
def beforeReturn (line : Bytes) : Bytes := line.takeWhile (fun c => c ≠ 13)

namespace Server

def setClient (s : Server) (i : Slot) (client : Client) : Server :=
  { s with clients := Function.update s.clients i client }

@[simp] theorem setClient_clients_self (s : Server) (i : Slot) (client : Client) :
    (s.setClient i client).clients i = client := Function.update_self _ _ _

theorem setClient_clients_of_ne (s : Server) {i j : Slot} (client : Client) (h : j ≠ i) :
    (s.setClient i client).clients j = s.clients j := Function.update_of_ne h _ _

/-- Texts handed to `send_text` one after the other, each with its descriptor. -/
def sendAll (s : Server) (texts : List (ℤ × Bytes)) : Server := { s with sent := s.sent ++ texts }

def sendText (s : Server) (fd : ℤ) (text : Bytes) : Server := s.sendAll [(fd,text)]

def findFreeClient (s : Server) : Option Slot :=
  (List.finRange maxClients).find? (fun i => !(s.clients i).active)

def findClientByFd (s : Server) (fd : ℤ) : Option Slot :=
  (List.finRange maxClients).find? (fun i => (s.clients i).active && (s.clients i).fd == fd)

def usernameInUse (s : Server) (username : Bytes) : Bool :=
  (List.finRange maxClients).any (fun i =>
    (s.clients i).active && (s.clients i).loggedIn && (s.clients i).username == username)

/-- The logged-in clients in the order of their slots. -/
def online (s : Server) : List Slot :=
  (List.finRange maxClients).filter (fun i => (s.clients i).active && (s.clients i).loggedIn)

def broadcastMessage (s : Server) (message : Bytes) (exceptFd : ℤ) : Server :=
  s.sendAll (((s.online.map (fun i => (s.clients i).fd)).filter (fun fd => fd ≠ exceptFd)).map
    (fun fd => (fd,message)))

def closeFd (s : Server) (fd : ℤ) : Server := { s with fds := Function.update s.fds fd none }

def disconnectClient (s : Server) (i : Slot) : Server :=
  if !(s.clients i).active then s
  else (s.closeFd (s.clients i).fd).setClient i Client.free

/-- `"%d. %s%s\n"` -/
def userText (s : Server) (own : Slot) (number : ℕ) (i : Slot) : Bytes :=
  snprintf 128 (decimal number ++ ascii ". " ++ (s.clients i).username ++
    (if i = own then ascii " (you)" else []) ++ ascii "\n")

def showUserList (s : Server) (i : Slot) : Server :=
  s.sendAll ((ascii "\n===== ONLINE USERS =====\n"::
    (s.online.zipIdx.map (fun p => s.userText i (p.2+1) p.1) ++
      [ascii "========================\n"])).map (fun text => ((s.clients i).fd,text)))

def processLogin (s : Server) (i : Slot) (line : Bytes) : Server :=
  let line := beforeReturn line
  let client := s.clients i
  if line = [] then
    s.sendText client.fd (ascii "Username cannot be empty.\nEnter your username: ")
  else if usernameSize ≤ line.length then
    s.sendText client.fd (ascii "Username too long.\nEnter your username: ")
  else if s.usernameInUse line then
    s.sendText client.fd (ascii "This username is already online.\nEnter another username: ")
  else
    let client := { client with username := line.take (usernameSize-1), loggedIn := true }
    let s := s.setClient i client
    let s := s.sendText client.fd (ascii "\nLogin successful.\nWelcome to the GROUP CHAT.\n\n" ++
      ascii "Commands:\n/users  -> show online users\n/quit   -> leave server\n\n" ++
      ascii "Start typing your messages.\n============================\n")
    let s := s.showUserList i
    s.broadcastMessage
      (snprintf 128 (ascii "\n[SYSTEM] " ++ client.username ++ ascii " joined the group.\n"))
      client.fd

/-- The result is false when the handler has closed its client. -/
def processGroupMessage (s : Server) (i : Slot) (line : Bytes) : Server × Bool :=
  let client := s.clients i
  if line = ascii "/users" then (s.showUserList i,true)
  else if line = ascii "/quit" then
    let s := s.broadcastMessage
      (snprintf 128 (ascii "\n[SYSTEM] " ++ client.username ++ ascii " left the group.\n")) client.fd
    ((s.sendText client.fd (ascii "Goodbye.\n")).disconnectClient i,false)
  else if line = [] then (s,true)
  else
    (s.broadcastMessage (snprintf (bufferSize+usernameSize+16)
      (client.username ++ ascii ": " ++ line ++ ascii "\n")) client.fd,true)

/-- `line` is a C string. -/
def processLine (s : Server) (i : Slot) (line : Bytes) : Server × Bool :=
  let line := beforeReturn line
  if !(s.clients i).loggedIn then (s.processLogin i line,true) else s.processGroupMessage i line

end Server

/-- The loop over the complete lines in the buffer of slot `i`. -/
def reader (i : Slot) : LineReader Server Unit where
  isOpen s := (s.clients i).active
  buffer s := (s.clients i).inputBuffer
  setBuffer s buffer := s.setClient i { s.clients i with inputBuffer := buffer }
  handle _ s line := s.processLine i (cstr line)

/-- A descriptor that `accept` returned, and whether `epoll_ctl` could add it. -/
structure AcceptAnswer where
  fd : ℤ
  registers : Bool

inductive RecvAnswer
  | data (bytes : Bytes)
  | fin
  | interrupted
  | error

/-- One entry of `events[]`, with the answer to `accept` if it is for the listening socket and to
`recv` if it is for a client. -/
structure Entry where
  fd : ℤ
  accept : Option AcceptAnswer := none
  recv : RecvAnswer := .interrupted

namespace Server

/-- A new connection is open under `fd`. -/
def openFd (s : Server) (fd : ℤ) : Server :=
  { s with fds := Function.update s.fds fd (some s.accepted), accepted := s.accepted+1 }

def handleAccept (s : Server) (answer : AcceptAnswer) : Server :=
  let s := s.openFd answer.fd
  match s.findFreeClient with
  | none => (s.sendText answer.fd (ascii "Server is full.\n")).closeFd answer.fd
  | some i =>
    let s := s.setClient i (Client.connected answer.fd)
    if !answer.registers then s.disconnectClient i
    else s.sendText answer.fd (ascii "Enter your username: ")

/-- The end of the stream: the others are told if the client was logged in. -/
def handleFin (s : Server) (i : Slot) (fd : ℤ) : Server :=
  let client := s.clients i
  let s :=
    if client.loggedIn then
      s.broadcastMessage
        (snprintf 128 (ascii "\n[SYSTEM] " ++ client.username ++ ascii " disconnected.\n")) fd
    else s
  s.disconnectClient i

def handleData (s : Server) (i : Slot) (fd : ℤ) (bytes : Bytes) : Server :=
  let client := s.clients i
  if bufferSize ≤ client.inputBuffer.length+bytes.length then
    (s.sendText fd (ascii "Input too long.\n")).setClient i { client with inputBuffer := [] }
  else
    let buffer := client.inputBuffer ++ bytes
    (reader i).loop (fun _ => ()) buffer.length ((reader i).setBuffer s buffer)

def handleEntry (s : Server) (e : Entry) : Server :=
  if e.fd = s.serverFd then
    match e.accept with
    | none => s
    | some answer => s.handleAccept answer
  else
    match s.findClientByFd e.fd with
    | none => s
    | some i =>
      match e.recv with
      | .interrupted => s
      | .error => s.disconnectClient i
      | .fin => s.handleFin i e.fd
      | .data bytes => s.handleData i e.fd bytes

/-- The server at the start of its main loop. -/
def boot (serverFd : ℤ) : Server := ⟨fun _ => Client.free,serverFd,fun _ => none,0,[]⟩

end Server

/-- `accept` returns an unused descriptor, and `recv` between 1 and 1024 bytes. -/
def Entry.Fits (e : Entry) (s : Server) : Prop :=
  (∀ answer ∈ e.accept, 0 ≤ answer.fd ∧ answer.fd ≠ s.serverFd ∧ s.fds answer.fd = none) ∧
  match e.recv with
  | .data bytes => 0 < bytes.length ∧ bytes.length ≤ 1024
  | _ => True

instance (e : Entry) (s : Server) : Decidable (e.Fits s) := by
  unfold Entry.Fits
  cases e.recv <;> infer_instance

/-- One server process, event by event. -/
def groupChat : Machine Server Entry where
  init s := ∃ serverFd, s = Server.boot serverFd
  step s e := if e.Fits s then some (s.handleEntry e) else none

theorem groupChat_step {s t : Server} {e : Entry} :
    groupChat.step s e = some t ↔ e.Fits s ∧ t = s.handleEntry e := guarded_eq_some

section Sockets

variable {s : Server} {i : Slot}

theorem disconnectClient_eq (h : (s.clients i).active = true) :
    s.disconnectClient i = (s.closeFd (s.clients i).fd).setClient i Client.free := by
  simp [Server.disconnectClient,h]

theorem findClientByFd_some {fd : ℤ} (h : s.findClientByFd fd = some i) :
    (s.clients i).active = true ∧ (s.clients i).fd = fd := by
  have hp := List.find?_some h
  simpa using hp

theorem findFreeClient_some (h : s.findFreeClient = some i) : (s.clients i).active = false := by
  have hp := List.find?_some h
  simpa using hp

end Sockets

end NetLab.GroupChat
