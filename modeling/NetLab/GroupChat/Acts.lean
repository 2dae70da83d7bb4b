import NetLab.Foundation.Room
import NetLab.GroupChat.Input

/-! The group chat as a room. An event makes the server do a number of acts: it handles a line, or
the end of a connection. Each act is one happening in the room or none, and the texts that are sent
in it go to the client itself and, all of them the same, to the others. -/
namespace NetLab.GroupChat

/-- The room that the table of the clients stands for. -/
def Server.room (s : Server) : Room Slot Bytes := fun i =>
  if (s.clients i).active && (s.clients i).loggedIn then some (s.clients i).username else none

/-- The texts of a log that went to one descriptor. -/
def textsTo (log : List (ℤ × Bytes)) (fd : ℤ) : List Bytes :=
  (log.filter (fun p => p.1 = fd)).map Prod.snd

/-- What was sent to a descriptor from one state to a later one. -/
def newTexts (s t : Server) (fd : ℤ) : List Bytes := textsTo (t.sent.drop s.sent.length) fd

inductive Move
  | line (i : Slot) (line : Bytes)
  | fin (i : Slot)
  | lost (i : Slot)

def Move.slot : Move → Slot
  | .line i _ => i
  | .fin i => i
  | .lost i => i

/-- A move of the server, in the state in which it is made. -/
structure Act where
  before : Server
  move : Move

namespace Act

def slot (a : Act) : Slot := a.move.slot

def after (a : Act) : Server :=
  match a.move with
  | .line i line => (a.before.processLine i line).1
  | .fin i => a.before.handleFin i (a.before.clients i).fd
  | .lost i => a.before.disconnectClient i

/-- What was sent to a descriptor during the act. -/
def told (a : Act) (fd : ℤ) : List Bytes := newTexts a.before a.after fd

end Act

/-- The lines that are not messages. -/
def commands : List Bytes := [ascii "/users",ascii "/quit",[]]

/-- `"%s: %s\n"` -/
def messageText (name line : Bytes) : Bytes := name ++ ascii ": " ++ line ++ ascii "\n"

/-- What a member called `name` says with a line. -/
def spoken (name line : Bytes) : Option Bytes :=
  if beforeReturn line ∈ commands then none else some (messageText name (beforeReturn line))

namespace Act

/-- The message that a line of a member is. -/
def message (a : Act) : Option Bytes :=
  match a.move with
  | .line i line =>
    match a.before.room i with
    | none => none
    | some name =>
      if beforeReturn line ∈ commands then none else some (messageText name (beforeReturn line))
  | _ => none

/-- What happens in the room. -/
def happening (a : Act) : Option (Room.Happening Slot Bytes Bytes) :=
  match a.before.room a.slot,a.after.room a.slot with
  | none,some name => some (.enters a.slot name)
  | some _,none => some (.leaves a.slot)
  | _,_ => a.message.map (.speaks a.slot)

end Act

/-- The acts that an event brings about, in their order. -/
def Server.acts (s : Server) (e : Entry) : List Act :=
  match s.received e with
  | some _ => (s.calls e).map (fun c => ⟨c.1.before,.line c.2 (cstr c.1.line)⟩)
  | none =>
    if e.fd = s.serverFd then []
    else
      match s.findClientByFd e.fd,e.recv with
      | some i,.fin => [⟨s,.fin i⟩]
      | some i,.error => [⟨s,.lost i⟩]
      | _,_ => []

/-- The acts of a run. -/
def runActs (es : List Entry) (s : Server) : List Act :=
  groupChat.observe (fun s e acts => acts ++ s.acts e) es s []

section Texts

variable {s t u : Server} {log log' : List (ℤ × Bytes)} {fd : ℤ}

@[simp] theorem textsTo_nil (fd : ℤ) : textsTo [] fd = [] := rfl

@[simp] theorem textsTo_append (log log' : List (ℤ × Bytes)) (fd : ℤ) :
    textsTo (log ++ log') fd = textsTo log fd ++ textsTo log' fd := by
  simp [textsTo]

theorem textsTo_same (texts : List Bytes) (fd : ℤ) :
    textsTo (texts.map (fun text => (fd,text))) fd = texts := by
  induction texts with
  | nil => rfl
  | cons text texts ih => simpa [textsTo] using ih

theorem textsTo_other {fd fd' : ℤ} (h : fd' ≠ fd) (texts : List Bytes) :
    textsTo (texts.map (fun text => (fd,text))) fd' = [] := by
  have hne : ∀ p ∈ texts.map (fun text => (fd,text)), ¬ (decide (p.1 = fd') = true) := by
    intro p hp
    obtain ⟨text,-,rfl⟩ := List.mem_map.mp hp
    simpa using Ne.symm h
  rw [textsTo,List.filter_eq_nil_iff.mpr hne]
  rfl

/-- One text sent to different descriptors reaches each of them once. -/
theorem textsTo_broadcast {fds : List ℤ} (h : fds.Nodup) (text : Bytes) (fd : ℤ) :
    textsTo (fds.map (fun fd => (fd,text))) fd = if fd ∈ fds then [text] else [] := by
  induction fds with
  | nil => rfl
  | cons x fds ih =>
    obtain ⟨hx,hfds⟩ := List.nodup_cons.mp h
    have hrest := ih hfds
    simp only [textsTo,List.map_cons,List.filter_cons,List.mem_cons] at hrest ⊢
    by_cases hfd : x = fd
    · subst hfd
      rw [if_neg hx] at hrest
      simp [hrest]
    · simpa [hfd,Ne.symm hfd] using hrest

theorem newTexts_eq (h : t.sent = s.sent ++ log) (fd : ℤ) : newTexts s t fd = textsTo log fd := by
  rw [newTexts,h,List.drop_left]

theorem newTexts_self (s : Server) (fd : ℤ) : newTexts s s fd = [] := by
  rw [newTexts,List.drop_length,textsTo_nil]

theorem newTexts_trans (h : s.sent <+: t.sent) (h' : t.sent <+: u.sent) (fd : ℤ) :
    newTexts s u fd = newTexts s t fd ++ newTexts t u fd := by
  obtain ⟨log,hlog⟩ := h
  obtain ⟨log',hlog'⟩ := h'
  have hall : u.sent = s.sent ++ (log ++ log') := by
    rw [← hlog',← hlog,List.append_assoc]
  rw [newTexts_eq hlog.symm,newTexts_eq hlog'.symm,newTexts_eq hall,textsTo_append]

end Texts

section Seats

variable {s : Server} {i j : Slot} {name : Bytes}

theorem room_eq_some : s.room i = some name ↔
    (s.clients i).active = true ∧ (s.clients i).loggedIn = true ∧ (s.clients i).username = name := by
  simp [Server.room,and_assoc]

theorem room_eq_none (hactive : (s.clients i).active = true) :
    s.room i = none ↔ (s.clients i).loggedIn = false := by
  simp [Server.room,hactive]

theorem room_isSome : (s.room i).isSome = true ↔ i ∈ s.online := by
  simp [Server.room,Server.online]

theorem room_active (h : (s.room i).isSome = true) : (s.clients i).active = true := by
  obtain ⟨name,hname⟩ := Option.isSome_iff_exists.mp h
  exact (room_eq_some.mp hname).1

theorem usernameInUse_iff : s.usernameInUse name = true ↔ ∃ i, s.room i = some name := by
  simp [Server.usernameInUse,Server.room,and_assoc]

/-- One seat changes, the others are as they were. -/
theorem setClient_room (s : Server) (i : Slot) (client : Client) : (s.setClient i client).room =
    Function.update s.room i
      (if client.active && client.loggedIn then some client.username else none) := by
  funext j
  by_cases hj : j = i
  · rw [hj,Function.update_self]
    simp [Server.room]
  · rw [Function.update_of_ne hj]
    simp [Server.room,Server.setClient_clients_of_ne _ _ hj]

theorem disconnectClient_room (hactive : (s.clients i).active = true) :
    (s.disconnectClient i).room = Function.update s.room i none := by
  rw [disconnectClient_eq hactive,setClient_room]
  rfl

/-- No other connected client has the descriptor of this one. -/
theorem fd_ne (hs : s.sockets.Consistent) (hi : (s.clients i).active = true)
    (hj : (s.clients j).active = true) (hne : j ≠ i) : (s.clients j).fd ≠ (s.clients i).fd :=
  fun h => hne (hs.unique j i hj hi h)

end Seats

/-- What a client may call itself. -/
structure NameOk (name : Bytes) : Prop where
  nonempty : name ≠ []
  short : name.length < usernameSize
  oneLine : newline ∉ name

def joinedText (name : Bytes) : Bytes :=
  ascii "\n[SYSTEM] " ++ name ++ ascii " joined the group.\n"

def leftText (name : Bytes) : Bytes := ascii "\n[SYSTEM] " ++ name ++ ascii " left the group.\n"

def disconnectedText (name : Bytes) : Bytes := ascii "\n[SYSTEM] " ++ name ++ ascii " disconnected.\n"

def welcomeText : Bytes :=
  ascii "\nLogin successful.\nWelcome to the GROUP CHAT.\n\n" ++
    ascii "Commands:\n/users  -> show online users\n/quit   -> leave server\n\n" ++
    ascii "Start typing your messages.\n============================\n"

def goodbyeText : Bytes := ascii "Goodbye.\n"

/-- What the server answers to a name that it does not take. -/
def refusals : List Bytes :=
  [ascii "Username cannot be empty.\nEnter your username: ",
    ascii "Username too long.\nEnter your username: ",
    ascii "This username is already online.\nEnter another username: "]

/-- The texts of `show_user_list`. -/
def Server.userList (s : Server) (i : Slot) : List Bytes :=
  ascii "\n===== ONLINE USERS =====\n"::
    (s.online.zipIdx.map (fun p => s.userText i (p.2+1) p.1) ++
      [ascii "========================\n"])

/-- A log holds `own` for the client in slot `i`, `told` for each other member, and nothing else. -/
structure Delivery (s : Server) (i : Slot) (log : List (ℤ × Bytes)) (own told : List Bytes) :
    Prop where
  own : textsTo log (s.clients i).fd = own
  told : ∀ j, j ≠ i → (s.room j).isSome = true → textsTo log (s.clients j).fd = told
  nobody : ∀ fd, fd ≠ (s.clients i).fd →
    (∀ j, j ≠ i → (s.room j).isSome = true → (s.clients j).fd ≠ fd) → textsTo log fd = []

/-- From `s` to `t` only the seat `i` changes, and the texts go out as `Delivery` says. -/
structure Outcome (s : Server) (i : Slot) (t : Server) (own told : List Bytes) : Prop where
  sent : ∃ log, t.sent = s.sent ++ log ∧ Delivery s i log own told
  others : ∀ j, j ≠ i → t.clients j = s.clients j
  fd : (t.room i).isSome = true → (t.clients i).fd = (s.clients i).fd

/-- What the server has done for the client in slot `i`: the happening, what the client itself is
sent, and what the others are sent. -/
inductive Did (s : Server) (i : Slot) (t : Server) (move : Move) :
    Option (Room.Happening Slot Bytes Bytes) → List Bytes → List Bytes → Prop
  | silent : Did s i t move none [] []
  | refused (text : Bytes) (h : text ∈ refusals) : Did s i t move none [text] []
  | listed : Did s i t move none (t.userList i) []
  | joined (name : Bytes) (h : NameOk name) :
    Did s i t move (some (.enters i name)) (welcomeText::t.userList i) [joinedText name]
  | spoke (name line : Bytes) (h : s.room i = some name) :
    Did s i t move (some (.speaks i (messageText name line))) [] [messageText name line]
  | left (name : Bytes) (h : s.room i = some name) :
    Did s i t move (some (.leaves i)) [goodbyeText] [leftText name]
  | ended (name : Bytes) (h : s.room i = some name) :
    Did s i t move (some (.leaves i)) [] [disconnectedText name]
  | lost (name : Bytes) (h : s.room i = some name) (hmove : move = .lost i) :
    Did s i t move (some (.leaves i)) [] []

section Deliveries

variable {s s' : Server} {i : Slot} {log log' : List (ℤ × Bytes)} {own own' told told' : List Bytes}

theorem Delivery.nil (s : Server) (i : Slot) : Delivery s i [] [] [] where
  own := rfl
  told _ _ _ := rfl
  nobody _ _ _ := rfl

theorem Delivery.append (h : Delivery s i log own told) (h' : Delivery s i log' own' told') :
    Delivery s i (log ++ log') (own ++ own') (told ++ told') where
  own := by rw [textsTo_append,h.own,h'.own]
  told j hj hin := by rw [textsTo_append,h.told j hj hin,h'.told j hj hin]
  nobody fd hfd hnone := by
    rw [textsTo_append,h.nobody fd hfd hnone,h'.nobody fd hfd hnone,List.append_nil]

/-- Texts for the client alone. -/
theorem Delivery.alone (hs : s.sockets.Consistent) (hactive : (s.clients i).active = true)
    (texts : List Bytes) :
    Delivery s i (texts.map (fun text => ((s.clients i).fd,text))) texts [] where
  own := textsTo_same texts _
  told _ hj hin := textsTo_other (fd_ne hs hactive (room_active hin) hj) texts
  nobody _ hfd _ := textsTo_other hfd texts

/-- A broadcast, while the seat of the client itself may already have changed. -/
theorem Delivery.broadcast (hs : s.sockets.Consistent) (hactive : (s.clients i).active = true)
    (hfd : ∀ j, (s'.clients j).fd = (s.clients j).fd)
    (hkept : ∀ j, (s'.clients j).active = (s.clients j).active)
    (hroom : ∀ j, j ≠ i → s'.room j = s.room j) (text : Bytes) :
    Delivery s i (((s'.online.map (fun j => (s'.clients j).fd)).filter
      (fun fd => fd ≠ (s.clients i).fd)).map (fun fd => (fd,text))) [] [text] := by
  have hnodup : (s'.online.map (fun j => (s'.clients j).fd)).Nodup := by
    refine List.Nodup.map_on ?_ ((List.nodup_finRange _).filter _)
    intro j hj k hk heq
    have hj' := room_active (room_isSome.mpr hj)
    have hk' := room_active (room_isSome.mpr hk)
    rw [hkept] at hj' hk'
    rw [hfd,hfd] at heq
    exact hs.unique j k hj' hk' heq
  have hmem : ∀ fd, fd ∈ (s'.online.map (fun j => (s'.clients j).fd)).filter
      (fun fd => fd ≠ (s.clients i).fd) ↔
        (∃ j, (s'.room j).isSome = true ∧ (s.clients j).fd = fd) ∧ fd ≠ (s.clients i).fd := by
    intro fd
    simp only [List.mem_filter,List.mem_map,decide_eq_true_eq,room_isSome,hfd]
  have htexts := textsTo_broadcast (hnodup.filter (fun fd => fd ≠ (s.clients i).fd)) text
  refine ⟨?_,fun j hj hin => ?_,fun fd hne hnone => ?_⟩
  · rw [htexts,if_neg (fun h => ((hmem _).mp h).2 rfl)]
  · rw [htexts,if_pos]
    refine (hmem _).mpr ⟨⟨j,by rwa [hroom j hj],rfl⟩,?_⟩
    exact fd_ne hs hactive (room_active hin) hj
  · rw [htexts,if_neg]
    rintro h
    obtain ⟨⟨j,hin,rfl⟩,-⟩ := (hmem _).mp h
    have hj : j ≠ i := fun hj => hne (by rw [hj])
    rw [hroom j hj] at hin
    exact hnone j hj hin rfl

theorem Outcome.own_texts {t : Server} (h : Outcome s i t own told) :
    newTexts s t (s.clients i).fd = own := by
  obtain ⟨log,hlog,hdelivery⟩ := h.sent
  rw [newTexts_eq hlog,hdelivery.own]

theorem Outcome.told_texts {t : Server} (h : Outcome s i t own told) {j : Slot} (hj : j ≠ i)
    (hin : (s.room j).isSome = true) : newTexts s t (s.clients j).fd = told := by
  obtain ⟨log,hlog,hdelivery⟩ := h.sent
  rw [newTexts_eq hlog,hdelivery.told j hj hin]

theorem Outcome.no_texts {t : Server} (h : Outcome s i t own told) {fd : ℤ}
    (hfd : fd ≠ (s.clients i).fd)
    (hnone : ∀ j, j ≠ i → (s.room j).isSome = true → (s.clients j).fd ≠ fd) :
    newTexts s t fd = [] := by
  obtain ⟨log,hlog,hdelivery⟩ := h.sent
  rw [newTexts_eq hlog,hdelivery.nobody fd hfd hnone]

end Deliveries

section Handlers

variable {s : Server} {i : Slot} {line name : Bytes}

theorem beforeReturn_length_le (line : Bytes) : (beforeReturn line).length ≤ line.length :=
  (List.takeWhile_prefix _).length_le

theorem mem_of_mem_beforeReturn {c : UInt8} (h : c ∈ beforeReturn line) : c ∈ line :=
  (List.takeWhile_prefix _).subset h

theorem snprintf_of_lt {size : ℕ} {text : Bytes} (h : text.length < size) :
    snprintf size text = text := List.take_of_length_le (by omega)

theorem announcement_short {name : Bytes} (h : name.length < usernameSize) :
    (joinedText name).length < 128 ∧ (leftText name).length < 128 ∧
      (disconnectedText name).length < 128 := by
  have hstart : (ascii "\n[SYSTEM] ").length = 10 := by decide
  have hjoined : (ascii " joined the group.\n").length = 19 := by decide
  have hleft : (ascii " left the group.\n").length = 17 := by decide
  have hended : (ascii " disconnected.\n").length = 15 := by decide
  simp only [joinedText,leftText,disconnectedText,List.length_append,hstart,hjoined,hleft,hended]
  unfold usernameSize at h
  omega

/-- The slot of a client that has given its name. -/
def Server.seated (s : Server) (i : Slot) (name : Bytes) : Server :=
  s.setClient i { s.clients i with username := name, loggedIn := true }

/-- A login is answered, or the name is taken and announced. -/
theorem processLogin_cases (s : Server) (i : Slot) (hline : newline ∉ line) :
    (∃ text ∈ refusals, s.processLogin i line = s.sendText (s.clients i).fd text) ∨
    ∃ name, NameOk name ∧ (∀ j, s.room j ≠ some name) ∧ s.processLogin i line =
      (((s.seated i name).sendText (s.clients i).fd welcomeText).showUserList i).broadcastMessage
        (joinedText name) (s.clients i).fd := by
  simp only [Server.processLogin]
  split_ifs with hempty hlong hused
  · exact Or.inl ⟨_,by simp [refusals],rfl⟩
  · exact Or.inl ⟨_,by simp [refusals],rfl⟩
  · exact Or.inl ⟨_,by simp [refusals],rfl⟩
  · right
    have hok : NameOk (beforeReturn line) :=
      ⟨hempty,not_le.mp hlong,fun h => hline (mem_of_mem_beforeReturn h)⟩
    refine ⟨beforeReturn line,hok,fun j hj => hused (usernameInUse_iff.mpr ⟨j,hj⟩),?_⟩
    have hname : (beforeReturn line).take (usernameSize-1) = beforeReturn line :=
      snprintf_of_lt hok.short
    rw [hname]
    exact congrArg (fun text => Server.broadcastMessage _ text _)
      (snprintf_of_lt (announcement_short hok.short).1)

theorem messageText_short {name line : Bytes} (hname : name.length < usernameSize)
    (hline : line.length+1 < bufferSize) :
    (messageText name line).length < bufferSize+usernameSize+16 := by
  have hcolon : (ascii ": ").length = 2 := by decide
  have hend : (ascii "\n").length = 1 := by decide
  simp only [messageText,List.length_append,hcolon,hend]
  omega

/-- What a member's line does. -/
theorem processGroupMessage_cases (hin : s.room i = some name) (hname : NameOk name)
    (hline : line.length+1 < bufferSize) :
    (line = ascii "/users" ∧ (s.processGroupMessage i line).1 = s.showUserList i) ∨
    (line = ascii "/quit" ∧ (s.processGroupMessage i line).1 =
      ((s.broadcastMessage (leftText name) (s.clients i).fd).sendText (s.clients i).fd
        goodbyeText).disconnectClient i) ∨
    (line = [] ∧ (s.processGroupMessage i line).1 = s) ∨
    (line ∉ commands ∧ (s.processGroupMessage i line).1 =
      s.broadcastMessage (messageText name line) (s.clients i).fd) := by
  obtain ⟨-,-,hcalled⟩ := room_eq_some.mp hin
  simp only [Server.processGroupMessage]
  split_ifs with husers hquit hempty
  · exact Or.inl ⟨husers,rfl⟩
  · refine Or.inr (Or.inl ⟨hquit,?_⟩)
    rw [hcalled]
    exact congrArg (fun text => Server.disconnectClient (Server.sendText
      (Server.broadcastMessage _ text _) _ _) _) (snprintf_of_lt (announcement_short hname.short).2.1)
  · exact Or.inr (Or.inr (Or.inl ⟨hempty,rfl⟩))
  · refine Or.inr (Or.inr (Or.inr ⟨by simp [commands,husers,hquit,hempty],?_⟩))
    rw [hcalled]
    exact congrArg (fun text => Server.broadcastMessage _ text _)
      (snprintf_of_lt (messageText_short hname.short hline))

end Handlers

/-- The connections and the names of the members are in order. -/
structure Server.Sound (s : Server) : Prop where
  sockets : s.sockets.Consistent
  names : ∀ i name, s.room i = some name → NameOk name
  distinct : s.room.Distinct

/-- A line fits the buffer with its newline. -/
def Move.Fits : Move → Prop
  | .line _ text => text.length+1 < bufferSize ∧ newline ∉ text
  | .fin _ => True
  | .lost _ => True

structure Act.Legal (a : Act) : Prop where
  active : (a.before.clients a.slot).active = true
  fits : a.move.Fits

/-- What an act has done, in the room and to the log of what is sent. -/
def Act.Explained (a : Act) : Prop :=
  ∃ own told, Did a.before a.slot a.after a.move a.happening own told ∧
    Outcome a.before a.slot a.after own told ∧
    Room.Run a.before.room a.happening.toList a.after.room

section Acts

variable {a : Act} {s : Server} {i : Slot} {name line : Bytes}

theorem happening_enters (hbefore : a.before.room a.slot = none)
    (hafter : a.after.room a.slot = some name) : a.happening = some (.enters a.slot name) := by
  simp [Act.happening,hbefore,hafter]

theorem happening_leaves (hbefore : a.before.room a.slot = some name)
    (hafter : a.after.room a.slot = none) : a.happening = some (.leaves a.slot) := by
  simp [Act.happening,hbefore,hafter]

theorem happening_stays (h : a.after.room a.slot = a.before.room a.slot) :
    a.happening = a.message.map (.speaks a.slot) := by
  cases hbefore : a.before.room a.slot with
  | none => simp [Act.happening,h,hbefore]
  | some name => simp [Act.happening,h,hbefore]

/-- An act that only answers its client. -/
theorem answered_outcome {t : Server} {own : List Bytes} (hs : s.sockets.Consistent)
    (hactive : (s.clients i).active = true) (hclients : t.clients = s.clients)
    (hsent : t.sent = s.sent ++ own.map (fun text => ((s.clients i).fd,text))) :
    Outcome s i t own [] where
  sent := ⟨_,hsent,.alone hs hactive own⟩
  others j _ := by rw [hclients]
  fd _ := by rw [hclients]

theorem answered_room {t : Server} (hclients : t.clients = s.clients) : t.room = s.room := by
  unfold Server.room
  rw [hclients]

/-- An act that ends with the client disconnected. -/
theorem closed_outcome {t : Server} {own told : List Bytes} (hactive : (s.clients i).active = true)
    (hclients : t.clients = s.clients)
    (hsent : ∃ log, t.sent = s.sent ++ log ∧ Delivery s i log own told) :
    Outcome s i (t.disconnectClient i) own told := by
  have hactive' : (t.clients i).active = true := by rwa [hclients]
  refine ⟨?_,fun j hj => ?_,fun h => ?_⟩
  · rwa [disconnectClient_eq hactive']
  · rw [disconnectClient_eq hactive',Server.setClient_clients_of_ne _ _ hj]
    exact congrFun hclients j
  · rw [disconnectClient_room hactive',Function.update_self] at h
    contradiction

theorem closed_room {t : Server} (hactive : (s.clients i).active = true)
    (hclients : t.clients = s.clients) :
    (t.disconnectClient i).room = Function.update s.room i none := by
  rw [disconnectClient_room (by rwa [hclients]),answered_room hclients]

theorem seated_of_ne {j : Slot} (hj : j ≠ i) : (s.seated i name).clients j = s.clients j :=
  Server.setClient_clients_of_ne _ _ hj

/-- A login leaves the connections alone. -/
theorem seated_connection (s : Server) (i : Slot) (name : Bytes) (j : Slot) :
    ((s.seated i name).clients j).fd = (s.clients j).fd ∧
      ((s.seated i name).clients j).active = (s.clients j).active := by
  by_cases hj : j = i
  · subst hj
    rw [Server.seated,Server.setClient_clients_self]
    exact ⟨rfl,rfl⟩
  · rw [seated_of_ne hj]
    exact ⟨rfl,rfl⟩

theorem seated_room (hactive : (s.clients i).active = true) :
    (s.seated i name).room = Function.update s.room i (some name) := by
  rw [Server.seated,setClient_room]
  simp [hactive]

/-- The state after a successful login. -/
def Server.loggedIn (s : Server) (i : Slot) (name : Bytes) : Server :=
  (((s.seated i name).sendText (s.clients i).fd welcomeText).showUserList i).broadcastMessage
    (joinedText name) (s.clients i).fd

theorem loggedIn_outcome (hs : s.sockets.Consistent) (hactive : (s.clients i).active = true) :
    Outcome s i (s.loggedIn i name) (welcomeText::(s.loggedIn i name).userList i)
      [joinedText name] := by
  have hconn := seated_connection s i name
  have hroom : ∀ j, j ≠ i → (s.seated i name).room j = s.room j := by
    intro j hj
    unfold Server.room
    rw [seated_of_ne hj]
  have hlog := (Delivery.alone hs hactive (welcomeText::(s.seated i name).userList i)).append
    (.broadcast hs hactive (fun j => (hconn j).1) (fun j => (hconn j).2) hroom (joinedText name))
  rw [List.append_nil,List.nil_append] at hlog
  refine ⟨⟨_,?_,hlog⟩,fun j hj => seated_of_ne hj,fun _ => (hconn i).1⟩
  have hsent : (s.loggedIn i name).sent = s.sent ++ [((s.clients i).fd,welcomeText)] ++
      ((s.seated i name).userList i).map (fun text => (((s.seated i name).clients i).fd,text)) ++
      (((s.seated i name).online.map (fun j => ((s.seated i name).clients j).fd)).filter
        (fun fd => fd ≠ (s.clients i).fd)).map (fun fd => (fd,joinedText name)) := rfl
  rw [hsent,(hconn i).1]
  simp only [List.map_cons,List.append_assoc,List.cons_append,List.nil_append]

theorem login_explained (hs : s.Sound) (ha : Act.Legal ⟨s,.line i line⟩) (hout : s.room i = none) :
    Act.Explained ⟨s,.line i line⟩ := by
  have hactive : (s.clients i).active = true := ha.active
  have hloggedIn := (room_eq_none hactive).mp hout
  have hline : newline ∉ beforeReturn line := fun h => ha.fits.2 (mem_of_mem_beforeReturn h)
  have hmessage : Act.message ⟨s,.line i line⟩ = none := by simp [Act.message,hout]
  have hafter : Act.after ⟨s,.line i line⟩ = s.processLogin i (beforeReturn line) := by
    change (s.processLine i line).1 = _
    simp [Server.processLine,hloggedIn]
  rcases processLogin_cases s i hline with ⟨text,htext,heq⟩ | ⟨name,hname,hnew,heq⟩
  · rw [heq] at hafter
    have hclients : (Act.after ⟨s,.line i line⟩).clients = s.clients := by rw [hafter]; rfl
    have hroom := answered_room hclients
    have hnone : Act.happening ⟨s,.line i line⟩ = none := by
      rw [happening_stays (congrFun hroom i),hmessage]
      rfl
    refine ⟨[text],[],?_,answered_outcome hs.sockets hactive hclients (by rw [hafter]; rfl),?_⟩
    · rw [hnone]
      exact .refused text htext
    · rw [hnone,hroom]
      exact .nil _
  · replace hafter : Act.after ⟨s,.line i line⟩ = s.loggedIn i name := hafter.trans heq
    have hroom : (Act.after ⟨s,.line i line⟩).room = Function.update s.room i (some name) := by
      rw [hafter,← seated_room hactive]
      exact answered_room rfl
    have henters : Act.happening ⟨s,.line i line⟩ = some (.enters i name) :=
      happening_enters hout ((congrFun hroom i).trans (Function.update_self _ _ _))
    refine ⟨_,_,?_,by rw [hafter]; exact loggedIn_outcome hs.sockets hactive,?_⟩
    · rw [henters,hafter]
      exact .joined name hname
    · rw [henters,hroom]
      exact .single ⟨hout,hnew⟩

/-- A broadcast by the client in slot `i`. -/
theorem broadcast_delivery (hs : s.sockets.Consistent) (hactive : (s.clients i).active = true)
    (text : Bytes) : ∃ log, (s.broadcastMessage text (s.clients i).fd).sent = s.sent ++ log ∧
      Delivery s i log [] [text] :=
  ⟨_,rfl,.broadcast hs hactive (fun _ => rfl) (fun _ => rfl) (fun _ _ => rfl) text⟩

theorem line_after (hin : s.room i = some name) : Act.after ⟨s,.line i line⟩ =
    (s.processGroupMessage i (beforeReturn line)).1 := by
  change (s.processLine i line).1 = _
  simp [Server.processLine,(room_eq_some.mp hin).2.1]

theorem beforeReturn_fits (ha : Act.Legal ⟨s,.line i line⟩) :
    (beforeReturn line).length+1 < bufferSize := by
  have hshort := beforeReturn_length_le line
  have hfits := ha.fits.1
  omega

/-- A message goes to all the others, and its sender stays. -/
theorem message_spoken (hs : a.before.Sound) (ha : a.Legal) {text : Bytes}
    (h : a.message = some text) : a.happening = some (.speaks a.slot text) ∧
      Outcome a.before a.slot a.after [] [text] ∧ a.after.room = a.before.room := by
  obtain ⟨s,move⟩ := a
  cases move with
  | fin i => simp [Act.message] at h
  | lost i => simp [Act.message] at h
  | line i line =>
    cases hin : s.room i with
    | none => simp [Act.message,hin] at h
    | some name =>
      obtain ⟨hplain,rfl⟩ : beforeReturn line ∉ commands ∧
          messageText name (beforeReturn line) = text := by simpa [Act.message,hin] using h
      have hactive : (s.clients i).active = true := ha.active
      have hafter : Act.after ⟨s,.line i line⟩ =
          s.broadcastMessage (messageText name (beforeReturn line)) (s.clients i).fd := by
        rw [line_after hin]
        rcases processGroupMessage_cases hin (hs.names i name hin) (beforeReturn_fits ha) with
          ⟨hl,-⟩ | ⟨hl,-⟩ | ⟨hl,-⟩ | ⟨-,heq⟩
        · exact absurd (by simp [commands,hl]) hplain
        · exact absurd (by simp [commands,hl]) hplain
        · exact absurd (by simp [commands,hl]) hplain
        · exact heq
      have hclients : (Act.after ⟨s,.line i line⟩).clients = s.clients := by rw [hafter]; rfl
      have hroom := answered_room hclients
      refine ⟨?_,?_,hroom⟩
      · rw [happening_stays (congrFun hroom i),h]
        rfl
      · rw [hafter]
        exact ⟨broadcast_delivery hs.sockets hactive _,fun _ _ => rfl,fun _ => rfl⟩

theorem line_explained (hs : s.Sound) (ha : Act.Legal ⟨s,.line i line⟩)
    (hin : s.room i = some name) : Act.Explained ⟨s,.line i line⟩ := by
  have hactive : (s.clients i).active = true := ha.active
  have hafter : Act.after ⟨s,.line i line⟩ = (s.processGroupMessage i (beforeReturn line)).1 :=
    line_after hin
  -- A command that leaves the table of the clients as it is.
  have hquiet : ∀ own, beforeReturn line ∈ commands →
      (Act.after ⟨s,.line i line⟩).clients = s.clients →
      (Act.after ⟨s,.line i line⟩).sent = s.sent ++ own.map (fun text => ((s.clients i).fd,text)) →
      Did s i (Act.after ⟨s,.line i line⟩) (.line i line) none own [] →
      Act.Explained ⟨s,.line i line⟩ := by
    intro own hcommand hclients hsent hdid
    have hroom := answered_room hclients
    have hnone : Act.happening ⟨s,.line i line⟩ = none := by
      rw [happening_stays (congrFun hroom i)]
      simp [Act.message,hin,hcommand]
    refine ⟨own,[],?_,answered_outcome hs.sockets hactive hclients hsent,?_⟩
    · rwa [hnone]
    · rw [hnone,hroom]
      exact .nil _
  rcases processGroupMessage_cases hin (hs.names i name hin) (beforeReturn_fits ha) with
    ⟨hl,heq⟩ | ⟨hl,heq⟩ | ⟨hl,heq⟩ | ⟨hl,heq⟩
  · rw [heq] at hafter
    refine hquiet (s.userList i) (by simp [commands,hl]) (by rw [hafter]; rfl) (by rw [hafter]; rfl) ?_
    have hlist : (Act.after ⟨s,.line i line⟩).userList i = s.userList i := by rw [hafter]; rfl
    rw [← hlist]
    exact .listed
  · have hroom : (Act.after ⟨s,.line i line⟩).room = Function.update s.room i none := by
      rw [hafter,heq]
      exact closed_room hactive rfl
    have hleaves : Act.happening ⟨s,.line i line⟩ = some (.leaves i) :=
      happening_leaves hin ((congrFun hroom i).trans (Function.update_self _ _ _))
    obtain ⟨log,hlog,hdelivery⟩ := broadcast_delivery hs.sockets hactive (leftText name)
    have hall := hdelivery.append (.alone hs.sockets hactive [goodbyeText])
    refine ⟨[goodbyeText],[leftText name],?_,?_,?_⟩
    · rw [hleaves]
      exact .left name hin
    · rw [hafter,heq]
      refine closed_outcome hactive rfl ⟨_,?_,hall⟩
      rw [← List.append_assoc,← hlog]
      rfl
    · rw [hleaves,hroom]
      exact .single (by rw [Room.Allows,hin]; rfl)
  · rw [heq] at hafter
    exact hquiet [] (by simp [commands,hl]) (by rw [hafter]) (by rw [hafter]; simp) .silent
  · have hmessage : Act.message ⟨s,.line i line⟩ =
        some (messageText name (beforeReturn line)) := by simp [Act.message,hin,hl]
    obtain ⟨hspeaks,houtcome,hroom⟩ := message_spoken hs ha hmessage
    refine ⟨[],[messageText name (beforeReturn line)],?_,houtcome,?_⟩
    · rw [hspeaks]
      exact .spoke name _ hin
    · rw [hspeaks,hroom]
      exact .single (by rw [Room.Allows]; exact Option.isSome_iff_exists.mpr ⟨name,hin⟩)

/-- The end of the connection of a client that is not logged in, however it is found out. -/
theorem unseated_explained {move : Move} (ha : Act.Legal ⟨s,move⟩)
    (hout : s.room move.slot = none) (hmove : ∀ j line, move ≠ .line j line)
    (hafter : Act.after ⟨s,move⟩ = s.disconnectClient move.slot) : Act.Explained ⟨s,move⟩ := by
  have hactive : (s.clients move.slot).active = true := ha.active
  have hroom : (Act.after ⟨s,move⟩).room = s.room := by
    rw [hafter,closed_room hactive rfl,← hout,Function.update_eq_self]
  have hmessage : Act.message ⟨s,move⟩ = none := by
    cases move with
    | line j line => exact absurd rfl (hmove j line)
    | fin j => rfl
    | lost j => rfl
  have hnone : Act.happening ⟨s,move⟩ = none := by
    rw [happening_stays (congrFun hroom _),hmessage]
    rfl
  refine ⟨[],[],?_,?_,?_⟩
  · rw [hnone]
    exact .silent
  · rw [hafter]
    exact closed_outcome hactive rfl ⟨[],by simp,.nil s _⟩
  · rw [hnone,hroom]
    exact .nil _

theorem fin_explained (hs : s.Sound) (ha : Act.Legal ⟨s,.fin i⟩) : Act.Explained ⟨s,.fin i⟩ := by
  have hactive : (s.clients i).active = true := ha.active
  have hafter : Act.after ⟨s,.fin i⟩ = s.handleFin i (s.clients i).fd := rfl
  cases hin : s.room i with
  | none =>
    have hloggedIn := (room_eq_none hactive).mp hin
    refine unseated_explained ha hin (fun _ _ => Move.noConfusion) ?_
    rw [hafter]
    simp [Server.handleFin,hloggedIn,Move.slot]
  | some name =>
    obtain ⟨-,hloggedIn,hcalled⟩ := room_eq_some.mp hin
    have htext := snprintf_of_lt (announcement_short (hs.names i name hin).short).2.2
    have heq : s.handleFin i (s.clients i).fd =
        (s.broadcastMessage (disconnectedText name) (s.clients i).fd).disconnectClient i := by
      rw [← htext,← hcalled]
      simp [Server.handleFin,hloggedIn,disconnectedText]
    have hroom : (Act.after ⟨s,.fin i⟩).room = Function.update s.room i none := by
      rw [hafter,heq]
      exact closed_room hactive rfl
    have hleaves : Act.happening ⟨s,.fin i⟩ = some (.leaves i) :=
      happening_leaves hin ((congrFun hroom i).trans (Function.update_self _ _ _))
    refine ⟨[],[disconnectedText name],?_,?_,?_⟩
    · rw [hleaves]
      exact .ended name hin
    · rw [hafter,heq]
      exact closed_outcome hactive rfl (broadcast_delivery hs.sockets hactive _)
    · rw [hleaves,hroom]
      exact .single (by rw [Room.Allows,hin]; rfl)

theorem lost_explained (ha : Act.Legal ⟨s,.lost i⟩) : Act.Explained ⟨s,.lost i⟩ := by
  have hactive : (s.clients i).active = true := ha.active
  have hafter : Act.after ⟨s,.lost i⟩ = s.disconnectClient i := rfl
  cases hin : s.room i with
  | none => exact unseated_explained ha hin (fun _ _ => Move.noConfusion) hafter
  | some name =>
    have hroom : (Act.after ⟨s,.lost i⟩).room = Function.update s.room i none := by
      rw [hafter]
      exact closed_room hactive rfl
    have hleaves : Act.happening ⟨s,.lost i⟩ = some (.leaves i) :=
      happening_leaves hin ((congrFun hroom i).trans (Function.update_self _ _ _))
    refine ⟨[],[],?_,?_,?_⟩
    · rw [hleaves]
      exact .lost name hin rfl
    · rw [hafter]
      exact closed_outcome hactive rfl ⟨[],by simp,.nil s i⟩
    · rw [hleaves,hroom]
      exact .single (by rw [Room.Allows,hin]; rfl)

theorem Act.Legal.explained (ha : a.Legal) (hs : a.before.Sound) : a.Explained := by
  obtain ⟨s,move⟩ := a
  cases move with
  | line i line =>
    cases hin : s.room i with
    | none => exact login_explained hs ha hin
    | some name => exact line_explained hs ha hin
  | fin i => exact fin_explained hs ha
  | lost i => exact lost_explained ha

/-- Who does not leave in an act stays in the room. -/
theorem Act.Legal.stays {k : Slot} (ha : a.Legal) (hs : a.before.Sound)
    (hin : a.before.room k = some name) (hstay : a.happening ≠ some (.leaves k)) :
    a.after.room k = some name := by
  obtain ⟨-,-,-,-,hroom⟩ := ha.explained hs
  exact hroom.stays hin (fun h => hstay (Option.mem_toList.mp h))

theorem happenings_cons (a : Act) (as : List Act) : (a::as).filterMap Act.happening =
    a.happening.toList ++ as.filterMap Act.happening := by
  cases h : a.happening <;> simp [h]

end Acts

end NetLab.GroupChat
