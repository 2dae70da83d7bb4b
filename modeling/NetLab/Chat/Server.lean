import NetLab.Chat.Users

/-! The state of the chat server and the functions its handlers share: sending, disconnecting,
the message file, and the pages a client is shown. -/
namespace NetLab.Chat

def maxClients : ℕ := 100
def messageSize : ℕ := 1024
def inputBufferSize : ℕ := 4096

inductive ClientMode
  | login
  | menu
  | chat
  | admin
  deriving DecidableEq

/-- `struct Client`; `inputBuffer` is `input_buffer[0..input_len)` and `menuContactIds` is
`menu_contact_ids[0..menu_contact_count)`. -/
structure Client where
  fd : ℤ
  active : Bool
  loggedIn : Bool
  userId : ℤ
  mode : ClientMode
  chatPartnerId : ℤ
  inputBuffer : Bytes
  menuContactIds : List ℤ

/-- A slot that `memset` has zeroed, with `fd = -1`. -/
def Client.free : Client := ⟨-1,false,false,0,.login,0,[],[]⟩

/-- A slot that has just been given a connection. -/
def Client.connected (fd : ℤ) : Client := ⟨fd,true,false,-1,.login,-1,[],[]⟩

abbrev Slot := Fin maxClients

instance : NeZero maxClients := ⟨by decide⟩

/-- What the server has done besides sending. A message is recorded with the user table of that
moment, and a `recv` with the connection that was open under its descriptor. -/
inductive Journal
  | save (ok : Bool)
  | append (table : List User) (time sender receiver : ℤ) (message : Bytes)
  | recv (fd : ℤ) (connection : Option ℕ)
  deriving DecidableEq

/-- The server process with its files, the connections open under each descriptor, and what it
has sent and done so far. Connections are numbered in the order of their `accept`. -/
structure Server where
  users : List User
  clients : Slot → Client
  disk : Disk
  serverFd : ℤ
  fds : ℤ → Option ℕ
  accepted : ℕ
  sent : List (ℤ × Bytes)
  journal : List Journal

/-- The answers to the calls that handling one line may make: of `save_users`, of `fopen` on
`messages.db` for appending and for reading, of `time`, and the `%H:%M` of local times. -/
structure LineEnv where
  save : SaveAnswers
  appendOpens : Bool
  readOpens : Bool
  now : ℤ
  clock : ℤ → Bytes

namespace Server

def setClient (s : Server) (i : Slot) (client : Client) : Server :=
  { s with clients := Function.update s.clients i client }

@[simp] theorem setClient_clients_self (s : Server) (i : Slot) (client : Client) :
    (s.setClient i client).clients i = client := Function.update_self _ _ _

theorem setClient_clients_of_ne (s : Server) {i j : Slot} (client : Client) (h : j ≠ i) :
    (s.setClient i client).clients j = s.clients j := Function.update_of_ne h _ _

@[simp] theorem setClient_setClient (s : Server) (i : Slot) (client client' : Client) :
    (s.setClient i client).setClient i client' = s.setClient i client' := by
  simp [setClient]

/-- Texts handed to `send_text` one after the other; its result is ignored everywhere. -/
def sendTexts (s : Server) (fd : ℤ) (texts : List Bytes) : Server :=
  { s with sent := s.sent ++ texts.map (fun text => (fd,text)) }

def sendText (s : Server) (fd : ℤ) (text : Bytes) : Server := s.sendTexts fd [text]

end Server

/-- `send_format` truncates to its buffer of 4096 bytes. -/
def formatted (text : Bytes) : Bytes := text.take 4095

namespace Server

def sendFormat (s : Server) (fd : ℤ) (text : Bytes) : Server := s.sendText fd (formatted text)

def findClientByUserId (s : Server) (userId : ℤ) : Option Slot :=
  (List.finRange maxClients).find? (fun i =>
    (s.clients i).active && (s.clients i).loggedIn && (s.clients i).userId == userId)

def findFreeClientSlot (s : Server) : Option Slot :=
  (List.finRange maxClients).find? (fun i => !(s.clients i).active)

/-- The slot that the main loop looks up for an event. -/
def findClientByFd (s : Server) (fd : ℤ) : Option Slot :=
  (List.finRange maxClients).find? (fun i => (s.clients i).active && (s.clients i).fd == fd)

def closeFd (s : Server) (fd : ℤ) : Server := { s with fds := Function.update s.fds fd none }

def disconnectClient (s : Server) (i : Slot) : Server :=
  if !(s.clients i).active then s
  else (s.closeFd (s.clients i).fd).setClient i Client.free

/-- `save_users` with the table and the files of the server. -/
def saveUsers (s : Server) (ans : SaveAnswers) : Bool × Server :=
  let r := Chat.saveUsers ans s.users s.disk
  (r.1,{ s with disk := r.2, journal := s.journal ++ [.save r.1] })

end Server

/-- An entry of the static array `users`; entries that are not used hold zeros. -/
def userAt (users : List User) (k : ℕ) : User := users.getD k User.zero

def sanitizeMessage : Bytes → Bytes
  | [] => []
  | c::message =>
    if c = 13 ∨ c = newline then []
    else (if c = bar then 47 else c)::sanitizeMessage message

/-- `"%ld|%d|%d|%s"` -/
def messageLine (time sender receiver : ℤ) (message : Bytes) : Bytes :=
  decimal time ++ bar::(decimal sender ++ bar::(decimal receiver ++ bar::message))

/-- `append_message`; `false` stands for -1. -/
def Server.appendMessage (s : Server) (env : LineEnv) (sender receiver : ℤ) (text : Bytes) :
    Bool × Server :=
  if !env.appendOpens then (false,s)
  else
    let clean := sanitizeMessage (text.take (messageSize-1))
    let line := messageLine env.now sender receiver clean ++ [newline]
    (true,{ s with
      disk := { s.disk with messagesDb := some (s.disk.messagesDb.getD [] ++ line) }
      journal := s.journal ++ [.append s.users env.now sender receiver clean] })

/-- What `fopen(MESSAGES_FILE, "r")` gives access to. -/
def Server.openMessages (s : Server) (env : LineEnv) : Option Bytes :=
  if env.readOpens then s.disk.messagesDb else none

structure HistoryMessage where
  timestamp : ℤ
  senderId : ℤ
  receiverId : ℤ
  message : Bytes
  deriving DecidableEq

/-- `"%ld|%d|%d|%1023[^\n]"` -/
def historyFormat : List Directive :=
  [.int 64,.literal bar,.int 32,.literal bar,.int 32,.literal bar,.upTo 1023 newline]

/-- One line of `messages.db`; a missing text is the empty one. -/
def parseHistory (line : Bytes) : Option HistoryMessage :=
  match scan historyFormat (cstr line) with
  | [.int time,.int sender,.int receiver] => some ⟨time,sender,receiver,[]⟩
  | [.int time,.int sender,.int receiver,.text message] => some ⟨time,sender,receiver,message⟩
  | _ => none

def belongsToChat (myId partnerId : ℤ) (m : HistoryMessage) : Bool :=
  (m.senderId == myId && m.receiverId == partnerId) ||
    (m.senderId == partnerId && m.receiverId == myId)

/-- The window of the last ten messages. -/
def pushHistory (history : List HistoryMessage) (current : HistoryMessage) : List HistoryMessage :=
  if history.length < 10 then history ++ [current] else history.drop 1 ++ [current]

def collectHistory (myId partnerId : ℤ) (history : List HistoryMessage) (line : Bytes) :
    List HistoryMessage :=
  match parseHistory line with
  | none => history
  | some m => if belongsToChat myId partnerId m then pushHistory history m else history

def lastMessages (myId partnerId : ℤ) (db : Bytes) : List HistoryMessage :=
  (fgetsLines 1400 db).foldl (collectHistory myId partnerId) []

def senderName (users : List User) (id : ℤ) : Bytes :=
  match findUserIndexById users id with
  | none => ascii "unknown"
  | some k => (userAt users k).username

/-- `"[%s] %s: %s\n"` -/
def historyText (env : LineEnv) (users : List User) (m : HistoryMessage) : Bytes :=
  formatted (ascii "[" ++ env.clock m.timestamp ++ ascii "] " ++ senderName users m.senderId ++
    ascii ": " ++ m.message ++ ascii "\n")

def Server.showLastMessages (s : Server) (env : LineEnv) (i : Slot) (partnerId : ℤ) : Server :=
  match s.openMessages env with
  | none => s.sendText (s.clients i).fd (ascii "\nNo previous messages.\n")
  | some db =>
    let history := lastMessages (s.clients i).userId partnerId db
    if history.isEmpty then s.sendText (s.clients i).fd (ascii "\nNo previous messages.\n")
    else
      s.sendTexts (s.clients i).fd (ascii "\n----- LAST 10 MESSAGES -----\n"::
        (history.map (historyText env s.users) ++ [ascii "----------------------------\n"]))

/-- A contact with the time of the last message. -/
abbrev Contact := ℤ × ℤ

/-- `"%ld|%d|%d|"` -/
def contactFormat : List Directive :=
  [.int 64,.literal bar,.int 32,.literal bar,.int 32,.literal bar]

/-- The other party of a message of `userId`, and -1 for everyone else's messages. -/
def otherParty (userId sender receiver : ℤ) : ℤ :=
  if sender = userId then receiver else if receiver = userId then sender else -1

/-- The body of the loop over `messages.db`; `last_time` starts with zeros. -/
def collectContact (userId : ℤ) (contacts : List Contact) (line : Bytes) : List Contact :=
  match scan contactFormat (cstr line) with
  | [.int time,.int sender,.int receiver] =>
    let other := otherParty userId sender receiver
    if other = -1 then contacts
    else
      match contacts.findIdx? (fun c => c.1 = other) with
      | some position =>
        contacts.modify position (fun c => if time > c.2 then (c.1,time) else c)
      | none =>
        if maxUsers ≤ contacts.length then contacts
        else contacts ++ [(other,if time > 0 then time else 0)]
  | _ => contacts

/-- The inner loop: `x` stands at position `i` and the list after it. -/
def exchange (x : Contact) : List Contact → Contact × List Contact
  | [] => (x,[])
  | y::ys =>
    if y.2 > x.2 then ((exchange y ys).1,x::(exchange y ys).2)
    else ((exchange x ys).1,y::(exchange x ys).2)

/-- The outer loop over the first `n` positions. -/
def exchangeSort : ℕ → List Contact → List Contact
  | n+1,x::xs => (exchange x xs).1::exchangeSort n (exchange x xs).2
  | _,xs => xs

def conversations (userId : ℤ) (db : Option Bytes) : List Contact :=
  let contacts := (fgetsLines 1400 (db.getD [])).foldl (collectContact userId) []
  exchangeSort contacts.length contacts

/-- The line of a contact, numbered from 1; a contact without an entry has none. -/
def Server.contactText (s : Server) (position : ℕ) (contactId : ℤ) : Option Bytes :=
  match findUserIndexById s.users contactId with
  | none => none
  | some k =>
    let user := userAt s.users k
    let status :=
      if user.active = 0 then ascii "removed"
      else if (s.findClientByUserId user.id).isSome then ascii "online"
      else ascii "offline"
    some (formatted (decimal (position+1) ++ ascii ". " ++ user.username ++ ascii " [" ++ status ++
      ascii "]\n"))

/-- `users[find_user_index_by_id(id)].is_admin`, where there is such an entry. -/
def isAdminId (users : List User) (id : ℤ) : Bool :=
  match findUserIndexById users id with
  | none => false
  | some k => (userAt users k).isAdmin != 0

def Server.showConversationList (s : Server) (env : LineEnv) (i : Slot) : Server :=
  let client := s.clients i
  let contacts := conversations client.userId (s.openMessages env)
  let ids := contacts.map Prod.fst
  let s := s.setClient i { client with menuContactIds := ids }
  s.sendTexts client.fd (ascii "\n========== CHATS ==========\n"::
    ((if ids.isEmpty then [ascii "No previous conversations.\n"] else []) ++
      (ids.zipIdx.filterMap (fun p => s.contactText p.2 p.1)) ++
      [ascii "\nNumber       : open chat\n" ++ ascii "n <username> : new/open chat\n" ++
        ascii "r            : refresh\n"] ++
      (if isAdminId s.users client.userId then [ascii "a            : admin page\n"] else []) ++
      [ascii "q            : disconnect\n===========================\n> "]))

def Server.openChat (s : Server) (env : LineEnv) (i : Slot) (partnerId : ℤ) : Server :=
  let client := s.clients i
  match findUserIndexById s.users partnerId with
  | none => s.sendText client.fd (ascii "User not found.\n> ")
  | some k =>
    if partnerId = client.userId then
      s.sendText client.fd (ascii "You cannot chat with yourself.\n> ")
    else
      let s := s.setClient i { client with mode := .chat, chatPartnerId := partnerId }
      let s := s.sendFormat client.fd
        (ascii "\n===== CHAT: " ++ (userAt s.users k).username ++ ascii " =====\n")
      let s :=
        if (userAt s.users k).active = 0 then
          s.sendText client.fd
            (ascii "[This user has been removed. History is read-only.]\n")
        else s
      let s := s.showLastMessages env i partnerId
      s.sendText client.fd (ascii "Type q and press Enter to leave chat.\n> ")

/-- `"%d. %s  ID=%d  [%s]%s\n"` -/
def adminText (position : ℕ) (user : User) : Bytes :=
  formatted (decimal (position+1) ++ ascii ". " ++ user.username ++ ascii "  ID=" ++
    decimal user.id ++ ascii "  [" ++
    (if user.active = 0 then ascii "removed" else ascii "active") ++ ascii "]" ++
    (if user.isAdmin = 0 then [] else ascii " [ADMIN]") ++ ascii "\n")

def Server.showAdminPage (s : Server) (i : Slot) : Server :=
  s.sendTexts (s.clients i).fd (ascii "\n========== ADMIN ==========\n"::
    (s.users.zipIdx.map (fun p => adminText p.2 p.1) ++
      [ascii "\nd <number> : remove user\n" ++ ascii "r <number> : restore user\n" ++
        ascii "q          : leave admin page\n" ++ ascii "===========================\nadmin> "]))

end NetLab.Chat
