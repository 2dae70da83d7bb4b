import NetLab.Foundation.Lines
import NetLab.Chat.Server

/-! The four handlers of a line, `process_line`, and the main loop's handling of one event. -/
namespace NetLab.Chat

namespace Server

/-- The end of `process_login`, for the entry with index `k`. -/
def enterMenu (s : Server) (env : LineEnv) (i : Slot) (k : ℕ) : Server :=
  let user := userAt s.users k
  let s := s.setClient i { s.clients i with userId := user.id, loggedIn := true, mode := .menu }
  let s := s.sendFormat (s.clients i).fd
    (ascii "\nLogin successful.\nWelcome " ++ user.username ++ ascii ". User ID: " ++
      decimal user.id ++ (if user.isAdmin = 0 then [] else ascii " [ADMIN]") ++ ascii "\n")
  s.showConversationList env i

def processLogin (s : Server) (env : LineEnv) (i : Slot) (line : Bytes) : Server × Bool :=
  let line := sanitizeMessage line
  let fd := (s.clients i).fd
  if line = [] then
    (s.sendText fd (ascii "Username cannot be empty.\nEnter your username: "),true)
  else if usernameSize ≤ line.length then
    (s.sendText fd (ascii "Username is too long.\nEnter your username: "),true)
  else
    match findUserIndexByName s.users line with
    | some k =>
      if (userAt s.users k).active = 0 then
        ((s.sendText fd
          (ascii "This account has been removed and cannot currently be used.\n")).disconnectClient i,
          false)
      else if (s.findClientByUserId (userAt s.users k).id).isSome then
        ((s.sendText fd (ascii "This user is already logged in.\n")).disconnectClient i,false)
      else (s.enterMenu env i k,true)
    | none =>
      if maxUsers ≤ s.users.length then
        ((s.sendText fd (ascii "User database is full.\n")).disconnectClient i,false)
      else
        let k := s.users.length
        let user : User := ⟨newUserId s.users,line.take (usernameSize-1),1,0⟩
        let s := { s with users := s.users ++ [user] }
        let r := s.saveUsers env.save
        if !r.1 then
          ((r.2.sendText fd (ascii "Could not save user.\n")).disconnectClient i,false)
        else (r.2.enterMenu env i k,true)

def processMenu (s : Server) (env : LineEnv) (i : Slot) (line : Bytes) : Server × Bool :=
  let client := s.clients i
  if line = ascii "q" then
    ((s.sendText client.fd (ascii "Goodbye.\n")).disconnectClient i,false)
  else if line = ascii "r" then (s.showConversationList env i,true)
  else if line = ascii "a" then
    if isAdminId s.users client.userId then
      ((s.setClient i { client with mode := .admin }).showAdminPage i,true)
    else (s.sendText client.fd (ascii "Admin access denied.\n> "),true)
  else if line.take 2 = ascii "n " then
    match findUserIndexByName s.users (line.drop 2) with
    | none => (s.sendText client.fd (ascii "User does not exist.\n> "),true)
    | some k => (s.openChat env i (userAt s.users k).id,true)
  else
    let selection := (strtol line).1
    if line ≠ [] ∧ (strtol line).2 = [] ∧ 1 ≤ selection ∧
        selection ≤ client.menuContactIds.length then
      (s.openChat env i (client.menuContactIds.getD (selection-1).toNat 0),true)
    else (s.sendText client.fd (ascii "Invalid command.\n> "),true)

/-- What the sender and the recipient of a stored message are shown. -/
def deliver (s : Server) (i : Slot) (partner : User) (line : Bytes) : Server :=
  let client := s.clients i
  match s.findClientByUserId partner.id with
  | none =>
    s.sendFormat client.fd
      (ascii "[Stored. " ++ partner.username ++ ascii " is offline.]\n> ")
  | some j =>
    let recipient := s.clients j
    let name := senderName s.users client.userId
    let s :=
      if recipient.mode = .chat ∧ recipient.chatPartnerId = client.userId then
        s.sendFormat recipient.fd (ascii "\n" ++ name ++ ascii ": " ++ line ++ ascii "\n> ")
      else
        s.sendFormat recipient.fd (ascii "\n[New message from " ++ name ++ ascii "]\n> ")
    s.sendText client.fd (ascii "> ")

def processChat (s : Server) (env : LineEnv) (i : Slot) (line : Bytes) : Server × Bool :=
  let client := s.clients i
  if line = ascii "q" then
    ((s.setClient i { client with mode := .menu, chatPartnerId := -1 }).showConversationList env i,
      true)
  else if line = [] then (s.sendText client.fd (ascii "> "),true)
  else
    match findUserIndexById s.users client.chatPartnerId with
    | none => (s.sendText client.fd (ascii "This user no longer exists.\n> "),true)
    | some k =>
      let partner := userAt s.users k
      if partner.active = 0 then
        (s.sendFormat client.fd (partner.username ++
          ascii " is currently unavailable. The account has been removed.\n> "),true)
      else
        let r := s.appendMessage env client.userId partner.id line
        if !r.1 then (r.2.sendText client.fd (ascii "Message could not be saved.\n> "),true)
        else (r.2.deliver i partner line,true)

/-- `"%c %d"` -/
def adminFormat : List Directive := [.char,.space,.int 32]

/-- `users[k].active = active`, and `save_users` whose result is not looked at. -/
def setUserActive (s : Server) (env : LineEnv) (k : ℕ) (active : ℤ) : Server :=
  let s := { s with users := s.users.modify k (fun u => { u with active := active }) }
  (s.saveUsers env.save).2

/-- The session of a removed account is told and closed. -/
def dropSession (s : Server) (userId : ℤ) : Server :=
  match s.findClientByUserId userId with
  | none => s
  | some j =>
    (s.sendText (s.clients j).fd
      (ascii "\nYour account has been removed by the administrator.\n")).disconnectClient j

def processAdmin (s : Server) (env : LineEnv) (i : Slot) (line : Bytes) : Server × Bool :=
  let client := s.clients i
  if line = ascii "q" then
    ((s.setClient i { client with mode := .menu }).showConversationList env i,true)
  else
    match scan adminFormat line with
    | [.text command,.int selection] =>
      if selection < 1 ∨ selection > s.users.length then
        (s.sendText client.fd (ascii "Invalid user number.\nadmin> "),true)
      else
        let k := (selection-1).toNat
        let user := userAt s.users k
        if command = ascii "d" then
          if user.isAdmin ≠ 0 then
            (s.sendText client.fd (ascii "Admin account cannot be removed.\nadmin> "),true)
          else if user.active = 0 then
            (s.sendText client.fd (ascii "User is already removed.\nadmin> "),true)
          else
            let s := (s.setUserActive env k 0).dropSession user.id
            let s := s.sendFormat (s.clients i).fd (user.username ++ ascii " removed.\n")
            (s.showAdminPage i,true)
        else if command = ascii "r" then
          if user.active ≠ 0 then
            (s.sendText client.fd (ascii "User is already active.\nadmin> "),true)
          else
            let s := s.setUserActive env k 1
            let s := s.sendFormat client.fd (user.username ++ ascii " restored.\n")
            (s.showAdminPage i,true)
        else (s.sendText client.fd (ascii "Unknown admin command.\nadmin> "),true)
    | _ => (s.sendText client.fd (ascii "Invalid admin command.\nadmin> "),true)

/-- `line` is a C string; the result is false when the handler has closed its own client. -/
def processLine (s : Server) (env : LineEnv) (i : Slot) (line : Bytes) : Server × Bool :=
  let line := sanitizeMessage line
  match (s.clients i).mode with
  | .login => s.processLogin env i line
  | .menu => s.processMenu env i line
  | .chat => s.processChat env i line
  | .admin => s.processAdmin env i line

/-- The loop over the complete lines in the buffer. Every line takes at least one byte from it,
so as many rounds as there are bytes are enough. -/
def lineLoop (envs : ℕ → LineEnv) (i : Slot) : ℕ → Server → Server
  | 0,s => s
  | rounds+1,s =>
    if !(s.clients i).active then s
    else
      match firstLine (s.clients i).inputBuffer with
      | none => s
      | some (line,rest) =>
        let s := s.setClient i { s.clients i with inputBuffer := rest }
        let r := s.processLine (envs rounds) i (cstr line)
        if !r.2 then r.1 else lineLoop envs i rounds r.1

end Server

/-- A descriptor that `accept` returned, and whether `epoll_ctl` could add it. -/
structure AcceptAnswer where
  fd : ℤ
  registers : Bool

/-- What `recv` answers, with the answers that the lines it completes will get. -/
inductive RecvAnswer
  | data (bytes : Bytes) (envs : ℕ → LineEnv)
  | fin
  | interrupted
  | error

/-- One entry of `events[]`, with the answer to `accept` if it is for the listening socket and to
`recv` if it is for a client. -/
structure Entry where
  fd : ℤ
  accept : Option AcceptAnswer := none
  recv : RecvAnswer := .interrupted

namespace Server

/-- A new connection is open under `fd`. -/
def openFd (s : Server) (fd : ℤ) : Server :=
  { s with fds := Function.update s.fds fd (some s.accepted), accepted := s.accepted+1 }

def handleAccept (s : Server) (answer : AcceptAnswer) : Server :=
  let s := s.openFd answer.fd
  match s.findFreeClientSlot with
  | none => (s.sendText answer.fd (ascii "Server is full.\n")).closeFd answer.fd
  | some i =>
    let s := s.setClient i (Client.connected answer.fd)
    if !answer.registers then s.disconnectClient i
    else s.sendText answer.fd (ascii "Enter your username: ")

def handleData (s : Server) (i : Slot) (bytes : Bytes) (envs : ℕ → LineEnv) : Server :=
  let client := s.clients i
  if inputBufferSize ≤ client.inputBuffer.length+bytes.length then
    (s.sendText client.fd (ascii "Input line too long.\n")).setClient i
      { client with inputBuffer := [] }
  else
    let buffer := client.inputBuffer ++ bytes
    lineLoop envs i buffer.length (s.setClient i { client with inputBuffer := buffer })

def handleEntry (s : Server) (e : Entry) : Server :=
  if e.fd = s.serverFd then
    match e.accept with
    | none => s
    | some answer => s.handleAccept answer
  else
    match s.findClientByFd e.fd with
    | none => s
    | some i =>
      let s := { s with journal := s.journal ++ [.recv e.fd (s.fds e.fd)] }
      match e.recv with
      | .interrupted => s
      | .error => s.disconnectClient i
      | .fin => s.disconnectClient i
      | .data bytes envs => s.handleData i bytes envs

end Server

/-- `accept` returns an unused descriptor, and `recv` between 1 and 1024 bytes. -/
def Entry.Fits (e : Entry) (s : Server) : Prop :=
  (∀ answer ∈ e.accept, 0 ≤ answer.fd ∧ answer.fd ≠ s.serverFd ∧ s.fds answer.fd = none) ∧
  match e.recv with
  | .data bytes _ => 0 < bytes.length ∧ bytes.length ≤ 1024
  | _ => True

instance (e : Entry) (s : Server) : Decidable (e.Fits s) := by
  unfold Entry.Fits
  cases e.recv <;> infer_instance

end NetLab.Chat
