import NetLab.Chat.Handlers

/-! What handling one line can do. Everything but the texts that are sent is one of the steps of
`LineEffect`, so an invariant needs one case for each of them and never opens a handler. -/
namespace NetLab.Chat

/-- `t` is `s`, except that more may have been sent. -/
def Server.Tells (s t : Server) : Prop := ∃ sent, t = { s with sent := sent }

namespace Server.Tells

variable {s t u : Server}

theorem refl (s : Server) : s.Tells s := ⟨s.sent,rfl⟩

theorem trans (h : s.Tells t) (h' : t.Tells u) : s.Tells u := by
  obtain ⟨_,rfl⟩ := h
  obtain ⟨sent,rfl⟩ := h'
  exact ⟨sent,rfl⟩

theorem texts (h : s.Tells t) (fd : ℤ) (texts : List Bytes) : s.Tells (t.sendTexts fd texts) :=
  h.trans ⟨_,rfl⟩

theorem text (h : s.Tells t) (fd : ℤ) (text : Bytes) : s.Tells (t.sendText fd text) :=
  h.texts fd [text]

theorem format (h : s.Tells t) (fd : ℤ) (text : Bytes) : s.Tells (t.sendFormat fd text) :=
  h.text fd _

theorem setClient (h : s.Tells t) (i : Slot) (client : Client) :
    (s.setClient i client).Tells (t.setClient i client) := by
  obtain ⟨sent,rfl⟩ := h
  exact ⟨sent,rfl⟩

theorem closeFd (h : s.Tells t) (fd : ℤ) : (s.closeFd fd).Tells (t.closeFd fd) := by
  obtain ⟨sent,rfl⟩ := h
  exact ⟨sent,rfl⟩

theorem disconnect (h : s.Tells t) (i : Slot) :
    (s.disconnectClient i).Tells (t.disconnectClient i) := by
  have hc : t.clients = s.clients := by
    obtain ⟨sent,rfl⟩ := h
    rfl
  unfold disconnectClient
  rw [hc]
  split_ifs
  · exact h
  · exact (h.closeFd _).setClient i _

end Server.Tells

theorem showLastMessages_tells (s : Server) (env : LineEnv) (i : Slot) (partnerId : ℤ) :
    s.Tells (s.showLastMessages env i partnerId) := by
  unfold Server.showLastMessages
  cases s.openMessages env with
  | none => exact (Server.Tells.refl s).text _ _
  | some db =>
    dsimp only
    split_ifs
    · exact (Server.Tells.refl s).text _ _
    · exact (Server.Tells.refl s).texts _ _

/-- Showing the list of conversations stores the contacts in the order they are shown. -/
theorem Server.Tells.conversationList {s t : Server} (h : s.Tells t) (env : LineEnv) (i : Slot) :
    ∃ ids, (s.setClient i { s.clients i with menuContactIds := ids }).Tells
      (t.showConversationList env i) := by
  obtain ⟨sent,rfl⟩ := h
  exact ⟨_,_,rfl⟩

/-- Coming to the menu changes the slot once: its session and its list of contacts. -/
theorem Server.Tells.toMenu {s t : Server} {i : Slot} {client : Client}
    (h : (s.setClient i client).Tells t) (env : LineEnv) :
    ∃ ids, (s.setClient i { client with menuContactIds := ids }).Tells
      (t.showConversationList env i) := by
  obtain ⟨ids,hids⟩ := h.conversationList env i
  rw [setClient_clients_self,setClient_setClient] at hids
  exact ⟨ids,hids⟩

theorem deliver_tells (s : Server) (i : Slot) (partner : User) (line : Bytes) :
    s.Tells (s.deliver i partner line) := by
  unfold Server.deliver
  cases s.findClientByUserId partner.id with
  | none => exact (Server.Tells.refl s).format _ _
  | some j =>
    dsimp only
    split_ifs
    · exact ((Server.Tells.refl s).format _ _).text _ _
    · exact ((Server.Tells.refl s).format _ _).text _ _

/-- The name of a new account. -/
structure NewName (s : Server) (name : Bytes) : Prop where
  nonempty : name ≠ []
  short : name.length < usernameSize
  plain : 0 ∉ name ∧ bar ∉ name ∧ newline ∉ name
  unused : findUserIndexByName s.users name = none

/-- The server with a new account in its table, after an attempt to save the table. -/
def Server.registered (s : Server) (name : Bytes) (ok : Bool) : Server :=
  let users := s.users ++ [⟨newUserId s.users,name,1,0⟩]
  { s with
    users := users
    disk := if ok then { s.disk with usersDb := some (usersText users) } else s.disk
    journal := s.journal ++ [.save ok] }

/-- The server with the flag of an account changed, after an attempt to save the table. -/
def Server.withActive (s : Server) (k : ℕ) (active : ℤ) (ok : Bool) : Server :=
  let users := s.users.modify k (fun u => { u with active := active })
  { s with
    users := users
    disk := if ok then { s.disk with usersDb := some (usersText users) } else s.disk
    journal := s.journal ++ [.save ok] }

/-- The server with a message appended. -/
def Server.withMessage (s : Server) (time sender receiver : ℤ) (message : Bytes) : Server :=
  let line := messageLine time sender receiver message ++ [newline]
  { s with
    disk := { s.disk with messagesDb := some (s.disk.messagesDb.getD [] ++ line) }
    journal := s.journal ++ [.append s.users time sender receiver message] }

def Server.closeSession (s : Server) : Option Slot → Server
  | none => s
  | some j => s.disconnectClient j

section Disconnect

/-- Closing a connection has nothing to do with the table, the files or the journal. -/
theorem disconnectClient_users (s : Server) (i : Slot) : (s.disconnectClient i).users = s.users := by
  unfold Server.disconnectClient
  split <;> rfl

theorem disconnectClient_disk (s : Server) (i : Slot) : (s.disconnectClient i).disk = s.disk := by
  unfold Server.disconnectClient
  split <;> rfl

theorem disconnectClient_journal (s : Server) (i : Slot) :
    (s.disconnectClient i).journal = s.journal := by
  unfold Server.disconnectClient
  split <;> rfl

theorem disconnectClient_sent (s : Server) (i : Slot) : (s.disconnectClient i).sent = s.sent := by
  unfold Server.disconnectClient
  split <;> rfl

theorem closeSession_users (s : Server) (target : Option Slot) :
    (s.closeSession target).users = s.users := by
  cases target with
  | none => rfl
  | some j => exact disconnectClient_users s j

theorem closeSession_disk (s : Server) (target : Option Slot) :
    (s.closeSession target).disk = s.disk := by
  cases target with
  | none => rfl
  | some j => exact disconnectClient_disk s j

theorem closeSession_journal (s : Server) (target : Option Slot) :
    (s.closeSession target).journal = s.journal := by
  cases target with
  | none => rfl
  | some j => exact disconnectClient_journal s j

end Disconnect

/-- The session of the account `u` begins in slot `i`. -/
def Server.loggedInAs (s : Server) (i : Slot) (u : User) (ids : List ℤ) : Server :=
  s.setClient i { s.clients i with
    userId := u.id, loggedIn := true, mode := .menu, menuContactIds := ids }

inductive LineEffect (s : Server) (i : Slot) : Server → Prop
  /-- Only an answer is sent. -/
  | answer : LineEffect s i s
  /-- The client leaves, or its login is refused. -/
  | leave (h : (s.clients i).mode = .login ∨ (s.clients i).mode = .menu) :
    LineEffect s i (s.disconnectClient i)
  /-- Login to an account that exists. -/
  | login (h : (s.clients i).mode = .login) (u : User) (hu : u ∈ s.users) (hactive : u.active ≠ 0)
    (hfree : s.findClientByUserId u.id = none) (ids : List ℤ) :
    LineEffect s i (s.loggedInAs i u ids)
  /-- Login that creates the account. -/
  | register (h : (s.clients i).mode = .login) (name : Bytes) (hname : NewName s name)
    (hroom : s.users.length < maxUsers) (ids : List ℤ) :
    LineEffect s i ((s.registered name true).loggedInAs i ⟨newUserId s.users,name,1,0⟩ ids)
  /-- Login that could not save the new account, which stays in the table. -/
  | unsaved (h : (s.clients i).mode = .login) (name : Bytes) (hname : NewName s name)
    (hroom : s.users.length < maxUsers) :
    LineEffect s i ((s.registered name false).disconnectClient i)
  /-- The menu is shown again. -/
  | refresh (h : (s.clients i).mode = .menu) (ids : List ℤ) :
    LineEffect s i (s.setClient i { s.clients i with menuContactIds := ids })
  | enterAdmin (h : (s.clients i).mode = .menu)
    (hadmin : isAdminId s.users (s.clients i).userId = true) :
    LineEffect s i (s.setClient i { s.clients i with mode := .admin })
  | enterChat (h : (s.clients i).mode = .menu) (u : User) (hu : u ∈ s.users)
    (hother : u.id ≠ (s.clients i).userId) :
    LineEffect s i (s.setClient i { s.clients i with mode := .chat, chatPartnerId := u.id })
  | leaveChat (h : (s.clients i).mode = .chat) (ids : List ℤ) :
    LineEffect s i (s.setClient i { s.clients i with
      mode := .menu, chatPartnerId := -1, menuContactIds := ids })
  /-- A message to an active account is stored. -/
  | message (h : (s.clients i).mode = .chat) (u : User) (hu : u ∈ s.users)
    (hpartner : u.id = (s.clients i).chatPartnerId) (hactive : u.active ≠ 0) (time : ℤ)
    (text : Bytes) :
    LineEffect s i (s.withMessage time (s.clients i).userId u.id text)
  | leaveAdmin (h : (s.clients i).mode = .admin) (ids : List ℤ) :
    LineEffect s i (s.setClient i { s.clients i with mode := .menu, menuContactIds := ids })
  /-- An account is removed, and its session closed. -/
  | remove (h : (s.clients i).mode = .admin) (k : ℕ) (u : User) (hk : s.users[k]? = some u)
    (hadmin : u.isAdmin = 0) (hactive : u.active ≠ 0) (ok : Bool) :
    LineEffect s i ((s.withActive k 0 ok).closeSession (s.findClientByUserId u.id))
  | restore (h : (s.clients i).mode = .admin) (k : ℕ) (u : User) (hk : s.users[k]? = some u)
    (hactive : u.active = 0) (ok : Bool) : LineEffect s i (s.withActive k 1 ok)

section Lookup

theorem findUserIndexById_some {users : List User} {id : ℤ} {k : ℕ}
    (h : findUserIndexById users id = some k) : userAt users k ∈ users ∧ (userAt users k).id = id := by
  obtain ⟨hlt,hid,-⟩ := List.findIdx?_eq_some_iff_getElem.mp h
  rw [userAt,List.getD_eq_getElem _ _ hlt]
  exact ⟨List.getElem_mem hlt,by simpa using hid⟩

theorem findUserIndexByName_some {users : List User} {name : Bytes} {k : ℕ}
    (h : findUserIndexByName users name = some k) :
    userAt users k ∈ users ∧ (userAt users k).username = name := by
  obtain ⟨hlt,hname,-⟩ := List.findIdx?_eq_some_iff_getElem.mp h
  rw [userAt,List.getD_eq_getElem _ _ hlt]
  exact ⟨List.getElem_mem hlt,by simpa using hname⟩

theorem userAt_length (users : List User) (u : User) : userAt (users ++ [u]) users.length = u := by
  simp [userAt]

theorem userAt_of_lt {users : List User} {k : ℕ} (h : k < users.length) :
    users[k]? = some (userAt users k) := by
  rw [userAt,List.getD_eq_getElem _ _ h,List.getElem?_eq_getElem h]

end Lookup

theorem mem_sanitizeMessage {c : UInt8} {message : Bytes} (h : c ∈ sanitizeMessage message) :
    c ≠ newline ∧ c ≠ bar ∧ (c = 47 ∨ c ∈ message) := by
  induction message with
  | nil => simp [sanitizeMessage] at h
  | cons a message ih =>
    rw [sanitizeMessage] at h
    split_ifs at h with hend hbar
    · simp at h
    · rcases List.mem_cons.mp h with rfl | h
      · exact ⟨by decide,by decide,Or.inl rfl⟩
      · exact ⟨(ih h).1,(ih h).2.1,(ih h).2.2.imp_right (List.mem_cons_of_mem _)⟩
    · rw [not_or] at hend
      rcases List.mem_cons.mp h with rfl | h
      · exact ⟨hend.2,hbar,Or.inr List.mem_cons_self⟩
      · exact ⟨(ih h).1,(ih h).2.1,(ih h).2.2.imp_right (List.mem_cons_of_mem _)⟩

/-- A sanitized C string has no NUL, no separator and no newline. -/
theorem sanitizeMessage_plain {message : Bytes} (h : 0 ∉ message) :
    0 ∉ sanitizeMessage message ∧ bar ∉ sanitizeMessage message ∧
      newline ∉ sanitizeMessage message := by
  refine ⟨fun hm => ?_,fun hm => (mem_sanitizeMessage hm).2.1 rfl,
    fun hm => (mem_sanitizeMessage hm).1 rfl⟩
  rcases (mem_sanitizeMessage hm).2.2 with h47 | hmem
  · exact absurd h47 (by decide)
  · exact h hmem

/-- Handling the line has the effect `t`, besides what it sends. -/
def HasEffect (s : Server) (i : Slot) (s' : Server) : Prop := ∃ t, LineEffect s i t ∧ t.Tells s'

theorem HasEffect.of_tells {s s' : Server} {i : Slot} (h : s.Tells s') : HasEffect s i s' :=
  ⟨s,.answer,h⟩

section Handlers

variable (s : Server) (env : LineEnv) (i : Slot)

theorem sayAndLeave_effect (fd : ℤ) (text : Bytes)
    (h : (s.clients i).mode = .login ∨ (s.clients i).mode = .menu) :
    HasEffect s i ((s.sendText fd text).disconnectClient i) :=
  ⟨_,.leave h,((Server.Tells.refl s).text fd text).disconnect i⟩

theorem text_effect (fd : ℤ) (text : Bytes) : HasEffect s i (s.sendText fd text) :=
  .of_tells ((Server.Tells.refl s).text fd text)

theorem enterMenu_tells (k : ℕ) :
    ∃ ids, (s.loggedInAs i (userAt s.users k) ids).Tells (s.enterMenu env i k) := by
  unfold Server.enterMenu
  exact ((Server.Tells.refl _).format _ _).toMenu env

theorem saveUsers_registered (name : Bytes) (ans : SaveAnswers) :
    ∃ ok, Server.saveUsers
      { s with users := s.users ++ [⟨newUserId s.users,name,1,0⟩] } ans =
        (ok,s.registered name ok) := by
  unfold Server.saveUsers
  dsimp only
  rcases saveUsers_cases ans (s.users ++ [⟨newUserId s.users,name,1,0⟩]) s.disk with h | h
  · exact ⟨false,by rw [h]; rfl⟩
  · exact ⟨true,by rw [h]; rfl⟩

theorem setUserActive_eq (k : ℕ) (active : ℤ) :
    ∃ ok, s.setUserActive env k active = s.withActive k active ok := by
  unfold Server.setUserActive Server.saveUsers
  dsimp only
  rcases saveUsers_cases env.save (s.users.modify k (fun u => { u with active := active })) s.disk
    with h | h
  · exact ⟨false,by rw [h]; rfl⟩
  · exact ⟨true,by rw [h]; rfl⟩

theorem processLogin_effect (h : (s.clients i).mode = .login) {line : Bytes} (hline : 0 ∉ line) :
    HasEffect s i (s.processLogin env i line).1 := by
  have hplain := sanitizeMessage_plain hline
  simp only [Server.processLogin]
  by_cases hempty : sanitizeMessage line = []
  · rw [if_pos hempty]
    exact text_effect s i _ _
  rw [if_neg hempty]
  by_cases hlong : usernameSize ≤ (sanitizeMessage line).length
  · rw [if_pos hlong]
    exact text_effect s i _ _
  rw [if_neg hlong]
  cases hk : findUserIndexByName s.users (sanitizeMessage line) with
  | some k =>
    obtain ⟨hmem,-⟩ := findUserIndexByName_some hk
    dsimp only
    split_ifs with hactive hsession
    · exact sayAndLeave_effect s i _ _ (Or.inl h)
    · exact sayAndLeave_effect s i _ _ (Or.inl h)
    · obtain ⟨ids,hids⟩ := enterMenu_tells s env i k
      exact ⟨_,.login h _ hmem hactive (Option.not_isSome_iff_eq_none.mp hsession) ids,hids⟩
  | none =>
    have hshort : (sanitizeMessage line).length < usernameSize := not_le.mp hlong
    have hname : NewName s (sanitizeMessage line) := ⟨hempty,hshort,hplain,hk⟩
    have htake : (sanitizeMessage line).take (usernameSize-1) = sanitizeMessage line :=
      List.take_of_length_le (Nat.le_sub_one_of_lt hshort)
    obtain ⟨ok,hok⟩ := saveUsers_registered s (sanitizeMessage line) env.save
    dsimp only
    rw [htake,hok]
    split_ifs with hfull hsaved
    · exact sayAndLeave_effect s i _ _ (Or.inl h)
    · -- the failed save: the entry stays
      obtain rfl : ok = false := by simpa using hsaved
      exact ⟨_,.unsaved h _ hname (not_le.mp hfull),((Server.Tells.refl _).text _ _).disconnect i⟩
    · obtain rfl : ok = true := by simpa using hsaved
      obtain ⟨ids,hids⟩ := enterMenu_tells (s.registered (sanitizeMessage line) true) env i
        s.users.length
      have hlast : userAt (s.registered (sanitizeMessage line) true).users s.users.length =
          ⟨newUserId s.users,sanitizeMessage line,1,0⟩ := userAt_length _ _
      rw [hlast] at hids
      exact ⟨_,.register h _ hname (not_le.mp hfull) ids,hids⟩

theorem openChat_effect (h : (s.clients i).mode = .menu) (partnerId : ℤ) :
    HasEffect s i (s.openChat env i partnerId) := by
  simp only [Server.openChat]
  cases hk : findUserIndexById s.users partnerId with
  | none => exact text_effect s i _ _
  | some k =>
    obtain ⟨hmem,hid⟩ := findUserIndexById_some hk
    dsimp only
    by_cases hself : partnerId = (s.clients i).userId
    · rw [if_pos hself]
      exact text_effect s i _ _
    rw [if_neg hself]
    have hother : (userAt s.users k).id ≠ (s.clients i).userId := by rwa [hid]
    refine ⟨_,.enterChat h _ hmem hother,?_⟩
    rw [hid]
    split_ifs
    · exact ((((Server.Tells.refl _).format _ _).text _ _).trans
        (showLastMessages_tells _ _ _ _)).text _ _
    · exact (((Server.Tells.refl _).format _ _).trans (showLastMessages_tells _ _ _ _)).text _ _

theorem processMenu_effect (h : (s.clients i).mode = .menu) (line : Bytes) :
    HasEffect s i (s.processMenu env i line).1 := by
  simp only [Server.processMenu]
  by_cases hq : line = ascii "q"
  · rw [if_pos hq]
    exact sayAndLeave_effect s i _ _ (Or.inr h)
  rw [if_neg hq]
  by_cases hr : line = ascii "r"
  · rw [if_pos hr]
    obtain ⟨ids,hids⟩ := (Server.Tells.refl s).conversationList env i
    exact ⟨_,.refresh h ids,hids⟩
  rw [if_neg hr]
  by_cases ha : line = ascii "a"
  · rw [if_pos ha]
    split_ifs with hadmin
    · exact ⟨_,.enterAdmin h hadmin,(Server.Tells.refl _).texts _ _⟩
    · exact text_effect s i _ _
  rw [if_neg ha]
  by_cases hn : line.take 2 = ascii "n "
  · rw [if_pos hn]
    cases findUserIndexByName s.users (line.drop 2) with
    | none => exact text_effect s i _ _
    | some k => exact openChat_effect s env i h _
  rw [if_neg hn]
  split_ifs
  · exact openChat_effect s env i h _
  · exact text_effect s i _ _

theorem processChat_effect (h : (s.clients i).mode = .chat) (line : Bytes) :
    HasEffect s i (s.processChat env i line).1 := by
  simp only [Server.processChat]
  by_cases hq : line = ascii "q"
  · rw [if_pos hq]
    obtain ⟨ids,hids⟩ := (Server.Tells.refl (s.setClient i { s.clients i with
      mode := .menu, chatPartnerId := -1 })).toMenu env
    exact ⟨_,.leaveChat h ids,hids⟩
  rw [if_neg hq]
  by_cases hempty : line = []
  · rw [if_pos hempty]
    exact text_effect s i _ _
  rw [if_neg hempty]
  cases hk : findUserIndexById s.users (s.clients i).chatPartnerId with
  | none => exact text_effect s i _ _
  | some k =>
    obtain ⟨hmem,hid⟩ := findUserIndexById_some hk
    dsimp only
    by_cases hactive : (userAt s.users k).active = 0
    · rw [if_pos hactive]
      exact text_effect s i _ _
    rw [if_neg hactive]
    by_cases hopens : env.appendOpens = true
    · simp only [Server.appendMessage,hopens,Bool.not_true,Bool.false_eq_true,if_false]
      exact ⟨_,.message h _ hmem hid hactive env.now _,deliver_tells _ i _ _⟩
    · simp only [Server.appendMessage,hopens,Bool.not_false,if_true]
      exact text_effect s i _ _

/-- Closing the session of a removed account, with a word to it first. -/
theorem dropSession_tells (userId : ℤ) :
    (s.closeSession (s.findClientByUserId userId)).Tells (s.dropSession userId) := by
  unfold Server.dropSession
  cases s.findClientByUserId userId with
  | none => exact Server.Tells.refl s
  | some j => exact ((Server.Tells.refl s).text _ _).disconnect j

theorem dropSession_sent (userId : ℤ) : s.sent <+: (s.dropSession userId).sent := by
  unfold Server.dropSession
  cases s.findClientByUserId userId with
  | none => exact List.prefix_refl _
  | some j =>
    dsimp only
    rw [disconnectClient_sent]
    exact List.prefix_append _ _

/-- What a line in the admin page does: it leaves the page, gets an answer, or is a command for the
entry with the number that is read from it. -/
theorem processAdmin_cases (line : Bytes) :
    (line = ascii "q" ∧ (s.processAdmin env i line).1 =
      (s.setClient i { s.clients i with mode := .menu }).showConversationList env i) ∨
    (s.Tells (s.processAdmin env i line).1 ∧
      ((s.processAdmin env i line).1.clients i).mode = (s.clients i).mode) ∨
    ∃ (k : ℕ) (u : User), s.users[k]? = some u ∧
      ((scan Server.adminFormat line = [.text (ascii "d"),.int (k+1)] ∧ u.isAdmin = 0 ∧ u.active ≠ 0 ∧
        ∃ ok t, ((s.withActive k 0 ok).closeSession (s.findClientByUserId u.id)).Tells t ∧
          s.sent <+: t.sent ∧ (s.processAdmin env i line).1 = t.showAdminPage i) ∨
      (scan Server.adminFormat line = [.text (ascii "r"),.int (k+1)] ∧ u.active = 0 ∧
        ∃ ok t, (s.withActive k 1 ok).Tells t ∧ s.sent <+: t.sent ∧
          (s.processAdmin env i line).1 = t.showAdminPage i)) := by
  simp only [Server.processAdmin]
  by_cases hq : line = ascii "q"
  · rw [if_pos hq]
    exact Or.inl ⟨hq,rfl⟩
  rw [if_neg hq]
  have htext : ∀ text, s.Tells (s.sendText (s.clients i).fd text) ∧
      ((s.sendText (s.clients i).fd text).clients i).mode = (s.clients i).mode :=
    fun text => ⟨(Server.Tells.refl s).text _ _,rfl⟩
  split
  · next command selection hscan =>
    by_cases hrange : selection < 1 ∨ selection > s.users.length
    · rw [if_pos hrange]
      exact Or.inr (Or.inl (htext _))
    rw [if_neg hrange]
    have hk : s.users[(selection-1).toNat]? = some (userAt s.users (selection-1).toNat) :=
      userAt_of_lt (by omega)
    have hselection : selection = ((selection-1).toNat : ℤ)+1 := by omega
    by_cases hd : command = ascii "d"
    · rw [if_pos hd]
      split_ifs with hadmin hactive
      · exact Or.inr (Or.inl (htext _))
      · exact Or.inr (Or.inl (htext _))
      · obtain ⟨ok,hok⟩ := setUserActive_eq s env (selection-1).toNat 0
        rw [hok]
        have hdrop := dropSession_tells (s.withActive (selection-1).toNat 0 ok)
          (userAt s.users (selection-1).toNat).id
        refine Or.inr (Or.inr ⟨_,_,hk,Or.inl ⟨by rw [hscan,hd,← hselection],not_not.mp hadmin,
          hactive,ok,_,hdrop.format _ _,?_,rfl⟩⟩)
        exact (dropSession_sent (s.withActive _ 0 ok) _).trans (List.prefix_append _ _)
    rw [if_neg hd]
    by_cases hr : command = ascii "r"
    · rw [if_pos hr]
      split_ifs with hactive
      · exact Or.inr (Or.inl (htext _))
      · obtain ⟨ok,hok⟩ := setUserActive_eq s env (selection-1).toNat 1
        rw [hok]
        exact Or.inr (Or.inr ⟨_,_,hk,Or.inr ⟨by rw [hscan,hr,← hselection],not_not.mp hactive,ok,_,
          (Server.Tells.refl _).format _ _,List.prefix_append _ _,rfl⟩⟩)
    rw [if_neg hr]
    exact Or.inr (Or.inl (htext _))
  · exact Or.inr (Or.inl (htext _))

theorem processAdmin_effect (h : (s.clients i).mode = .admin) (line : Bytes) :
    HasEffect s i (s.processAdmin env i line).1 := by
  rcases processAdmin_cases s env i line with ⟨-,hq⟩ | ⟨htells,-⟩ | ⟨k,u,hk,hd | hr⟩
  · obtain ⟨ids,hids⟩ := (Server.Tells.refl (s.setClient i { s.clients i with
      mode := .menu })).toMenu env
    rw [hq]
    exact ⟨_,.leaveAdmin h ids,hids⟩
  · exact .of_tells htells
  · obtain ⟨-,hadmin,hactive,ok,t,ht,-,hpage⟩ := hd
    rw [hpage]
    exact ⟨_,.remove h k u hk hadmin hactive ok,ht.texts _ _⟩
  · obtain ⟨-,hactive,ok,t,ht,-,hpage⟩ := hr
    rw [hpage]
    exact ⟨_,.restore h k u hk hactive ok,ht.texts _ _⟩

/-- Every line of every client does one of the listed things. -/
theorem processLine_effect {line : Bytes} (hline : 0 ∉ line) :
    HasEffect s i (s.processLine env i line).1 := by
  have hplain := sanitizeMessage_plain hline
  simp only [Server.processLine]
  cases h : (s.clients i).mode with
  | login => exact processLogin_effect s env i h hplain.1
  | menu => exact processMenu_effect s env i h _
  | chat => exact processChat_effect s env i h _
  | admin => exact processAdmin_effect s env i h _

end Handlers

end NetLab.Chat
