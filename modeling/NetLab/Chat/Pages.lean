import NetLab.Chat.Records

/-! The numbered lists that clients are shown, and that a number typed later means the user it was
shown for, whatever the other clients have done in between. -/
namespace NetLab.Chat

section Contacts

variable {userId : ℤ} {ms : List HistoryMessage}

theorem exchange_perm (x : Contact) (ys : List Contact) :
    ((exchange x ys).1::(exchange x ys).2).Perm (x::ys) := by
  induction ys generalizing x with
  | nil => exact List.Perm.refl _
  | cons y ys ih =>
    rw [exchange]
    split_ifs
    · exact (List.Perm.swap _ _ _).trans ((ih y).cons x)
    · exact (List.Perm.swap _ _ _).trans (((ih x).cons y).trans (List.Perm.swap _ _ _))

/-- The sort by the time of the last message only permutes the contacts. -/
theorem exchangeSort_perm (n : ℕ) (xs : List Contact) : (exchangeSort n xs).Perm xs := by
  induction n generalizing xs with
  | zero =>
    cases xs with
    | nil => exact List.Perm.refl _
    | cons x xs => exact List.Perm.refl _
  | succ n ih =>
    cases xs with
    | nil => exact List.Perm.refl _
    | cons x xs =>
      rw [exchangeSort]
      exact ((ih _).cons _).trans (exchange_perm x xs)

/-- The records in a file that the server has written. -/
def ServerWritten (db : Bytes) : Prop := ∃ ms : List HistoryMessage,
  (∀ m ∈ ms, m.Storable ∧ m.senderId ≠ m.receiverId) ∧ db = ms.flatMap HistoryMessage.line

theorem scan_contact {m : HistoryMessage} (h : m.Storable) : scan contactFormat (cstr m.line) =
    [.int m.timestamp,.int m.senderId,.int m.receiverId] := by
  rw [h.cstr_line,contactFormat,h.scan_fields]
  rfl

theorem otherParty_ne {sender receiver : ℤ} (hne : sender ≠ receiver)
    (h : otherParty userId sender receiver ≠ -1) : otherParty userId sender receiver ≠ userId := by
  unfold otherParty at h ⊢
  split_ifs at h ⊢ with hsender hreceiver
  · rintro rfl
    exact hne hsender
  · rintro rfl
    exact hne hreceiver.symm
  · exact absurd rfl h

/-- Nobody is a contact of their own. -/
theorem collectContact_ne {contacts : List Contact} {m : HistoryMessage} (hm : m.Storable)
    (hne : m.senderId ≠ m.receiverId) (h : ∀ c ∈ contacts, c.1 ≠ userId) :
    ∀ c ∈ collectContact userId contacts m.line, c.1 ≠ userId := by
  unfold collectContact
  rw [scan_contact hm]
  dsimp only
  by_cases hother : otherParty userId m.senderId m.receiverId = -1
  · rw [if_pos hother]
    exact h
  · rw [if_neg hother]
    cases contacts.findIdx? (fun c => c.1 = otherParty userId m.senderId m.receiverId) with
    | some position =>
      intro c hc
      obtain ⟨k,hk⟩ := List.mem_iff_getElem?.mp hc
      rw [List.getElem?_modify] at hk
      obtain ⟨d,hd,heq⟩ := Option.map_eq_some_iff.mp hk
      have hid : c.1 = d.1 := by
        rw [← heq]
        split_ifs <;> rfl
      rw [hid]
      exact h d (List.mem_of_getElem? hd)
    | none =>
      dsimp only
      by_cases hfull : maxUsers ≤ contacts.length
      · rw [if_pos hfull]
        exact h
      · rw [if_neg hfull,List.forall_mem_append,List.forall_mem_singleton]
        exact ⟨h,otherParty_ne hne hother⟩

theorem conversations_ne {db : Option Bytes} (h : ServerWritten (db.getD [])) :
    ∀ c ∈ conversations userId db, c.1 ≠ userId := by
  obtain ⟨ms,hms,hdb⟩ := h
  have hcollect : ∀ ms : List HistoryMessage, (∀ m ∈ ms, m.Storable ∧ m.senderId ≠ m.receiverId) →
      ∀ contacts : List Contact, (∀ c ∈ contacts, c.1 ≠ userId) →
      ∀ c ∈ (ms.map HistoryMessage.line).foldl (collectContact userId) contacts, c.1 ≠ userId := by
    intro ms
    induction ms with
    | nil => exact fun _ contacts hcontacts => hcontacts
    | cons m ms ih =>
      intro hms contacts hcontacts
      obtain ⟨hm,hne⟩ := hms m List.mem_cons_self
      exact ih (fun m' hm' => hms m' (List.mem_cons_of_mem _ hm')) _
        (collectContact_ne hm hne hcontacts)
  intro c hc
  rw [conversations,hdb,fgetsLines_records (fun m hm => (hms m hm).1)] at hc
  exact hcollect ms hms [] (by simp) c ((exchangeSort_perm _ _).mem_iff.mp hc)

theorem collectContact_length {contacts : List Contact} (line : Bytes)
    (h : contacts.length ≤ maxUsers) : (collectContact userId contacts line).length ≤ maxUsers := by
  unfold collectContact
  split
  · next time sender receiver _ =>
    dsimp only
    by_cases hother : otherParty userId sender receiver = -1
    · rwa [if_pos hother]
    · rw [if_neg hother]
      cases contacts.findIdx? (fun c => c.1 = otherParty userId sender receiver) with
      | some position => simpa using h
      | none =>
        dsimp only
        by_cases hfull : maxUsers ≤ contacts.length
        · rwa [if_pos hfull]
        · rw [if_neg hfull,List.length_append,List.length_singleton]
          omega
  · exact h

/-- The list has room for all contacts there can be. -/
theorem conversations_length (userId : ℤ) (db : Option Bytes) :
    (conversations userId db).length ≤ maxUsers := by
  rw [conversations,(exchangeSort_perm _ _).length_eq]
  induction fgetsLines 1400 (db.getD []) using List.reverseRecOn with
  | nil => exact Nat.zero_le _
  | append_singleton lines line ih =>
    rw [List.foldl_append]
    exact collectContact_length line ih

end Contacts

section Printed

def chatsHeader : Bytes := ascii "\n========== CHATS ==========\n"

/-- An entry of the list of conversations as it is printed. -/
structure Listed where
  number : ℕ
  id : ℤ
  username : Bytes
  deriving DecidableEq

namespace Server

/-- The entries that the client in slot `i` is shown: a contact that the table does not have keeps
its number and is left out. -/
def listed (s : Server) (i : Slot) : List Listed :=
  (s.clients i).menuContactIds.zipIdx.filterMap (fun p =>
    match findUserIndexById s.users p.1 with
    | none => none
    | some k => some ⟨p.2+1,p.1,(userAt s.users k).username⟩)

def statusOf (s : Server) (id : ℤ) : Bytes :=
  match findUserIndexById s.users id with
  | none => []
  | some k =>
    if (userAt s.users k).active = 0 then ascii "removed"
    else if (s.findClientByUserId id).isSome then ascii "online"
    else ascii "offline"

def listedText (s : Server) (e : Listed) : Bytes :=
  formatted (decimal e.number ++ ascii ". " ++ e.username ++ ascii " [" ++ s.statusOf e.id ++
    ascii "]\n")

/-- The list of conversations as it is printed to the client in slot `i`. -/
def listTexts (s : Server) (i : Slot) : List Bytes :=
  chatsHeader::
    ((if (s.clients i).menuContactIds.isEmpty then [ascii "No previous conversations.\n"] else []) ++
      (s.listed i).map s.listedText ++
      [ascii "\nNumber       : open chat\n" ++ ascii "n <username> : new/open chat\n" ++
        ascii "r            : refresh\n"] ++
      (if isAdminId s.users (s.clients i).userId then [ascii "a            : admin page\n"] else []) ++
      [ascii "q            : disconnect\n===========================\n> "])

end Server

/-- The admin page as it is printed. -/
def adminTexts (users : List User) : List Bytes :=
  ascii "\n========== ADMIN ==========\n"::
    (users.zipIdx.map (fun p => adminText p.2 p.1) ++
      [ascii "\nd <number> : remove user\n" ++ ascii "r <number> : restore user\n" ++
        ascii "q          : leave admin page\n" ++ ascii "===========================\nadmin> "])

variable {s : Server} {env : LineEnv} {i : Slot}

theorem contactTexts_eq (s : Server) (i : Slot) :
    (s.clients i).menuContactIds.zipIdx.filterMap (fun p => s.contactText p.2 p.1) =
      (s.listed i).map s.listedText := by
  rw [Server.listed,List.map_filterMap]
  refine List.filterMap_congr (fun p _ => ?_)
  unfold Server.contactText
  cases hk : findUserIndexById s.users p.1 with
  | none => rfl
  | some k =>
    have hid := (findUserIndexById_some hk).2
    simp only [Option.map_some,Server.listedText,Server.statusOf,hk,hid,Nat.cast_add,Nat.cast_one]

/-- The list is the last thing that is sent when it is shown. -/
theorem showConversationList_sent (s : Server) (env : LineEnv) (i : Slot) :
    (s.showConversationList env i).sent = s.sent ++
      ((s.showConversationList env i).listTexts i).map (fun text => ((s.clients i).fd,text)) := by
  let ids := (conversations (s.clients i).userId (s.openMessages env)).map Prod.fst
  let t := s.setClient i { s.clients i with menuContactIds := ids }
  have hclient : t.clients i = { s.clients i with menuContactIds := ids } :=
    Server.setClient_clients_self _ _ _
  have hids : (t.clients i).menuContactIds = ids := by rw [hclient]
  have huser : (t.clients i).userId = (s.clients i).userId := by rw [hclient]
  have htexts : (s.showConversationList env i).listTexts i = t.listTexts i := rfl
  rw [htexts,Server.listTexts,← contactTexts_eq,hids,huser]
  rfl

end Printed

section Landing

/-- Where the client in slot `i` is after a line, and what it has been shown last. -/
inductive Landing (s : Server) (env : LineEnv) (i : Slot) : Server → Prop
  /-- In the menu, with the list that has just been printed. -/
  | list (u : Server) (hmode : (u.clients i).mode = .menu)
    (hfd : (u.clients i).fd = (s.clients i).fd) (hdb : u.disk.messagesDb = s.disk.messagesDb)
    (hsent : s.sent <+: u.sent) : Landing s env i (u.showConversationList env i)
  /-- In the admin page that has just been printed, unless the client has removed itself. -/
  | page (u : Server) (hclient : u.clients i = { s.clients i with mode := .admin } ∨
    u.clients i = Client.free) (hsent : s.sent <+: u.sent) : Landing s env i (u.showAdminPage i)
  /-- At the login, in a chat, or gone. -/
  | away (t : Server) (h : (t.clients i).mode = .login ∨ (t.clients i).mode = .chat) :
    Landing s env i t
  /-- Where it was, with an answer. -/
  | stay (t : Server) (h : s.Tells t) : Landing s env i t

variable {s : Server} {env : LineEnv} {i : Slot} {line : Bytes}

theorem text_landing (fd : ℤ) (text : Bytes) : Landing s env i (s.sendText fd text) :=
  .stay _ ((Server.Tells.refl s).text fd text)

theorem disconnectClient_away (h : (s.clients i).mode = .login ∨ (s.clients i).active = true) :
    ((s.disconnectClient i).clients i).mode = .login := by
  unfold Server.disconnectClient
  cases hactive : (s.clients i).active with
  | false => simpa [hactive] using h
  | true =>
    simp only [Bool.not_true,Bool.false_eq_true,if_false]
    rw [Server.setClient_clients_self]
    rfl

theorem enterMenu_landing {t : Server} (hdb : t.disk.messagesDb = s.disk.messagesDb)
    (hclients : t.clients = s.clients) (hsent : t.sent = s.sent) (k : ℕ) :
    Landing s env i (t.enterMenu env i k) := by
  unfold Server.enterMenu
  refine .list _ ?_ ?_ hdb ?_
  · exact congrArg Client.mode (Server.setClient_clients_self t i _)
  · change ((t.setClient i _).clients i).fd = _
    rw [Server.setClient_clients_self,hclients]
  · rw [← hsent]
    exact List.prefix_append _ _

theorem processLogin_landing (hm : (s.clients i).mode = .login) :
    Landing s env i (s.processLogin env i line).1 := by
  have hleave : ∀ (t : Server) fd text, t.clients = s.clients →
      Landing s env i ((t.sendText fd text).disconnectClient i) := by
    intro t fd text ht
    refine .away _ (Or.inl (disconnectClient_away (Or.inl ?_)))
    change (t.clients i).mode = .login
    rw [ht,hm]
  simp only [Server.processLogin]
  by_cases hempty : sanitizeMessage line = []
  · rw [if_pos hempty]
    exact text_landing _ _
  rw [if_neg hempty]
  by_cases hlong : usernameSize ≤ (sanitizeMessage line).length
  · rw [if_pos hlong]
    exact text_landing _ _
  rw [if_neg hlong]
  cases findUserIndexByName s.users (sanitizeMessage line) with
  | some k =>
    dsimp only
    split_ifs
    · exact hleave s _ _ rfl
    · exact hleave s _ _ rfl
    · exact enterMenu_landing rfl rfl rfl k
  | none =>
    obtain ⟨ok,hok⟩ := saveUsers_registered s ((sanitizeMessage line).take (usernameSize-1)) env.save
    dsimp only
    rw [hok]
    split_ifs
    · exact hleave s _ _ rfl
    · exact hleave _ _ _ rfl
    · have hdb : (s.registered ((sanitizeMessage line).take (usernameSize-1)) ok).disk.messagesDb =
          s.disk.messagesDb := by cases ok <;> rfl
      exact enterMenu_landing (s := s) hdb rfl rfl s.users.length

theorem openChat_landing (partnerId : ℤ) : Landing s env i (s.openChat env i partnerId) := by
  cases hk : findUserIndexById s.users partnerId with
  | none =>
    simp only [Server.openChat,hk]
    exact text_landing _ _
  | some k =>
    by_cases hself : partnerId = (s.clients i).userId
    · simp only [Server.openChat,hk,if_pos hself]
      exact text_landing _ _
    · have hopened : Server.Tells _ (s.openChat env i partnerId) := openChat_tells hk hself
      obtain ⟨sent,htells⟩ := hopened
      refine .away _ (Or.inr ?_)
      rw [htells]
      exact congrArg Client.mode (Server.setClient_clients_self _ _ _)

theorem processMenu_landing (hm : (s.clients i).mode = .menu) (hactive : (s.clients i).active = true) :
    Landing s env i (s.processMenu env i line).1 := by
  simp only [Server.processMenu]
  by_cases hq : line = ascii "q"
  · rw [if_pos hq]
    exact .away _ (Or.inl (disconnectClient_away (Or.inr hactive)))
  rw [if_neg hq]
  by_cases hr : line = ascii "r"
  · rw [if_pos hr]
    exact .list s hm rfl rfl (List.prefix_refl _)
  rw [if_neg hr]
  by_cases ha : line = ascii "a"
  · rw [if_pos ha]
    split_ifs
    · exact .page _ (Or.inl (Server.setClient_clients_self _ _ _)) (List.prefix_refl _)
    · exact text_landing _ _
  rw [if_neg ha]
  by_cases hn : line.take 2 = ascii "n "
  · rw [if_pos hn]
    cases findUserIndexByName s.users (line.drop 2) with
    | none => exact text_landing _ _
    | some k => exact openChat_landing _
  rw [if_neg hn]
  split_ifs
  · exact openChat_landing _
  · exact text_landing _ _

theorem processChat_landing (hm : (s.clients i).mode = .chat) :
    Landing s env i (s.processChat env i line).1 := by
  have htells : ∀ t u : Server, t.clients = s.clients → t.Tells u → Landing s env i u := by
    rintro t u ht ⟨sent,rfl⟩
    refine .away _ (Or.inr ?_)
    change (t.clients i).mode = .chat
    rw [ht,hm]
  simp only [Server.processChat]
  by_cases hq : line = ascii "q"
  · rw [if_pos hq]
    refine .list _ ?_ ?_ rfl (List.prefix_refl _)
    · rw [Server.setClient_clients_self]
    · rw [Server.setClient_clients_self]
  rw [if_neg hq]
  by_cases hempty : line = []
  · rw [if_pos hempty]
    exact text_landing _ _
  rw [if_neg hempty]
  cases findUserIndexById s.users (s.clients i).chatPartnerId with
  | none => exact text_landing _ _
  | some k =>
    dsimp only
    by_cases hactive : (userAt s.users k).active = 0
    · rw [if_pos hactive]
      exact text_landing _ _
    rw [if_neg hactive]
    by_cases hopens : env.appendOpens = true
    · simp only [Server.appendMessage,hopens,Bool.not_true,Bool.false_eq_true,if_false]
      exact htells (s.withMessage env.now (s.clients i).userId (userAt s.users k).id
        (sanitizeMessage (line.take (messageSize-1)))) _ rfl (deliver_tells _ i _ _)
    · simp only [Server.appendMessage,hopens,Bool.not_false,if_true]
      exact text_landing _ _

theorem closeSession_slot (s : Server) (target : Option Slot) (i : Slot) :
    (s.closeSession target).clients i = s.clients i ∨
      (s.closeSession target).clients i = Client.free := by
  cases target with
  | none => exact Or.inl rfl
  | some j =>
    change (s.disconnectClient j).clients i = _ ∨ (s.disconnectClient j).clients i = _
    unfold Server.disconnectClient
    split_ifs
    · exact Or.inl rfl
    · by_cases hj : i = j
      · rw [hj,Server.setClient_clients_self]
        exact Or.inr rfl
      · rw [Server.setClient_clients_of_ne _ _ hj]
        exact Or.inl rfl

theorem processAdmin_landing (hm : (s.clients i).mode = .admin) :
    Landing s env i (s.processAdmin env i line).1 := by
  have hsame : ({ s.clients i with mode := .admin } : Client) = s.clients i := by rw [← hm]
  rcases processAdmin_cases s env i line with ⟨-,hq⟩ | ⟨htells,-⟩ | ⟨k,u,hk,hd | hr⟩
  · rw [hq]
    refine .list _ ?_ ?_ rfl (List.prefix_refl _)
    · rw [Server.setClient_clients_self]
    · rw [Server.setClient_clients_self]
  · exact .stay _ htells
  · obtain ⟨-,-,-,ok,t,⟨sent,rfl⟩,hsent,hpage⟩ := hd
    rw [hpage]
    refine .page _ ?_ hsent
    rw [hsame]
    exact closeSession_slot (s.withActive k 0 ok) _ i
  · obtain ⟨-,-,ok,t,⟨sent,rfl⟩,hsent,hpage⟩ := hr
    rw [hpage]
    exact .page _ (Or.inl hsame.symm) hsent

theorem LineCall.landing (c : LineCall) (hactive : c.client.active = true) :
    Landing c.before c.env c.slot c.after := by
  cases hm : c.client.mode with
  | login =>
    rw [LineCall.after_login hm]
    exact processLogin_landing hm
  | menu =>
    rw [LineCall.after_menu hm]
    exact processMenu_landing hm hactive
  | chat =>
    rw [LineCall.after_chat hm]
    exact processChat_landing hm
  | admin =>
    rw [LineCall.after_admin hm]
    exact processAdmin_landing hm

end Landing

section Views

/-- The entries of the first table are in the second, at their places and with their ids and
names. -/
def Kept (users users' : List User) : Prop := ∀ (k : ℕ) u, users[k]? = some u →
  ∃ v, users'[k]? = some v ∧ v.id = u.id ∧ v.username = u.username

namespace LineCall

/-- What is sent while the line is handled. -/
def sent (c : LineCall) : List (ℤ × Bytes) := c.after.sent.drop c.before.sent.length

/-- The last thing sent is the list of conversations of the client, to the client. -/
def PrintsList (c : LineCall) : Prop :=
  (c.after.listTexts c.slot).map (fun text => (c.client.fd,text)) <:+ c.sent

/-- The last thing sent is the admin page, to the client. -/
def PrintsAdmin (c : LineCall) : Prop :=
  (adminTexts c.after.users).map (fun text => (c.client.fd,text)) <:+ c.sent

/-- A new account gets an id that stands in the list of a client in the menu. -/
def Adopts (c : LineCall) : Prop := c.NewAccount ∧ ∃ i, (c.before.clients i).mode = .menu ∧
  newUserId c.before.users ∈ (c.before.clients i).menuContactIds

instance : DecidablePred PrintsList := fun c => by
  unfold PrintsList
  infer_instance

instance : DecidablePred PrintsAdmin := fun c => by
  unfold PrintsAdmin
  infer_instance

instance : DecidablePred Adopts := fun c => by
  unfold Adopts
  infer_instance

end LineCall

/-- The last call of the kind `P` for the client in slot `i`. -/
def lastCall (P : LineCall → Prop) [DecidablePred P] (i : Slot) (calls : List LineCall) :
    Option LineCall := calls.reverse.find? (fun d => decide (d.slot = i ∧ P d))

/-- What the client in slot `i` was shown in its last list still holds. -/
structure ListView (d : LineCall) (s : Server) (i : Slot) : Prop where
  fd : (s.clients i).fd = d.client.fd
  ids : (s.clients i).menuContactIds = (d.after.clients i).menuContactIds
  count : (s.clients i).menuContactIds.length ≤ maxUsers
  others : ∀ id ∈ (s.clients i).menuContactIds, id ≠ (s.clients i).userId
  found : ∀ id ∈ (s.clients i).menuContactIds,
    findUserIndexById s.users id = findUserIndexById d.after.users id
  kept : Kept d.after.users s.users

/-- What the client in slot `i` was shown in its last admin page still holds. -/
structure AdminView (d : LineCall) (s : Server) (i : Slot) : Prop where
  fd : (s.clients i).fd = d.client.fd
  kept : Kept d.after.users s.users

/-- Every client in the menu or in the admin page has been shown it, and it still holds. -/
structure Views (calls : List LineCall) (s : Server) : Prop where
  list : ∀ i, (s.clients i).mode = .menu →
    ∃ d, lastCall LineCall.PrintsList i calls = some d ∧ ListView d s i
  admin : ∀ i, (s.clients i).mode = .admin →
    ∃ d, lastCall LineCall.PrintsAdmin i calls = some d ∧ AdminView d s i

variable {s t : Server} {i j : Slot} {c d : LineCall} {calls : List LineCall}

theorem Kept.refl (users : List User) : Kept users users := fun _ u h => ⟨u,h,rfl,rfl⟩

theorem Kept.after {users : List User} (h : Kept users c.before.users) :
    Kept users c.after.users := by
  intro k u hu
  obtain ⟨v,hv,hid,hname⟩ := h k u hu
  obtain ⟨w,hw,hid',hname'⟩ := c.keeps_entry hv
  exact ⟨w,hw,hid'.trans hid,hname'.trans hname⟩

theorem lastCall_concat (P : LineCall → Prop) [DecidablePred P] (i : Slot) (calls : List LineCall)
    (c : LineCall) : lastCall P i (calls ++ [c]) =
      if c.slot = i ∧ P c then some c else lastCall P i calls := by
  rw [lastCall,List.reverse_concat,List.find?_cons]
  by_cases h : c.slot = i ∧ P c
  · simp [h]
  · rw [if_neg h,decide_eq_false h]
    rfl

/-- A line of another client leaves a slot as it is, or closes it. -/
theorem LineEffect.other_slot (h : LineEffect s i t) (hj : j ≠ i) :
    t.clients j = s.clients j ∨ t.clients j = Client.free := by
  have hset : ∀ (u : Server) client, (u.setClient i client).clients j = u.clients j :=
    fun u client => Server.setClient_clients_of_ne u client hj
  cases h with
  | leave => exact closeSession_slot s (some i) j
  | unsaved _ name => exact closeSession_slot (s.registered name false) (some i) j
  | remove _ k u _ _ _ ok => exact closeSession_slot (s.withActive k 0 ok) _ j
  | answer => exact Or.inl rfl
  | message => exact Or.inl rfl
  | restore => exact Or.inl rfl
  | register _ name => exact Or.inl (hset (s.registered name true) _)
  | _ => exact Or.inl (hset s _)

theorem LineCall.other_slot (c : LineCall) (hj : j ≠ c.slot) :
    c.after.clients j = c.before.clients j ∨ c.after.clients j = Client.free := by
  obtain ⟨t,ht,sent,hafter⟩ := c.effect
  rw [hafter]
  exact ht.other_slot hj

/-- Between two lines a slot keeps everything but its buffer, or nobody is logged in there. -/
theorem Idle.slot (h : Idle s t) (i : Slot) : (t.clients i).mode = .login ∨
    ∃ buffer, t.clients i = { s.clients i with inputBuffer := buffer } := by
  have hset : ∀ (u : Server) (j : Slot) client, u.clients = s.clients →
      (i = j → client.mode = .login ∨ ∃ buffer, client = { s.clients i with inputBuffer := buffer }) →
      ((u.setClient j client).clients i).mode = .login ∨
        ∃ buffer, (u.setClient j client).clients i = { s.clients i with inputBuffer := buffer } := by
    intro u j client hu hclient
    by_cases hij : i = j
    · rw [← hij,Server.setClient_clients_self]
      exact hclient hij
    · rw [Server.setClient_clients_of_ne _ _ hij,hu]
      exact Or.inr ⟨_,rfl⟩
  cases h with
  | say => exact Or.inr ⟨_,rfl⟩
  | buffer j buffer => exact hset s j _ rfl (fun hij => Or.inr ⟨buffer,by rw [hij]⟩)
  | close j =>
    rcases closeSession_slot s (some j) i with hsame | hfree
    · exact Or.inr ⟨(s.clients i).inputBuffer,hsame⟩
    · exact Or.inl (congrArg Client.mode hfree)
  | recv => exact Or.inr ⟨_,rfl⟩
  | connect j fd => exact hset (s.openFd fd) j _ rfl (fun _ => Or.inl rfl)
  | refuse => exact Or.inr ⟨_,rfl⟩

theorem Idle.views (h : Idle s t) (hs : Views calls s) : Views calls t where
  list i hm := by
    rcases h.slot i with hlogin | ⟨buffer,hclient⟩
    · exact absurd (hlogin.symm.trans hm) (by decide)
    · rw [hclient] at hm
      obtain ⟨d,hd,hview⟩ := hs.list i hm
      refine ⟨d,hd,?_⟩
      constructor
      · rw [hclient]; exact hview.fd
      · rw [hclient]; exact hview.ids
      · rw [hclient]; exact hview.count
      · rw [hclient]; exact hview.others
      · rw [hclient,h.users]; exact hview.found
      · rw [h.users]; exact hview.kept
  admin i hm := by
    rcases h.slot i with hlogin | ⟨buffer,hclient⟩
    · exact absurd (hlogin.symm.trans hm) (by decide)
    · rw [hclient] at hm
      obtain ⟨d,hd,hview⟩ := hs.admin i hm
      exact ⟨d,hd,by rw [hclient]; exact hview.fd,by rw [h.users]; exact hview.kept⟩

theorem findUserIndexById_map (users : List User) (id : ℤ) :
    findUserIndexById users id = (users.map User.id).findIdx? (fun x => x = id) := by
  rw [List.findIdx?_map]
  rfl

/-- Where an id is found does not change unless it is the one of a new account. -/
theorem LineCall.find_after {id : ℤ} (h : c.NewAccount → newUserId c.before.users ≠ id) :
    findUserIndexById c.after.users id = findUserIndexById c.before.users id := by
  rcases c.table_cases with hsame | ⟨hnew,hadd⟩ | ⟨k,u,-,hk⟩ | ⟨k,u,-,hk⟩
  · rw [hsame]
  · have hlast : List.findIdx? (fun u => decide (u.id = id))
        [(⟨newUserId c.before.users,c.text,1,0⟩ : User)] = none := by
      simp [h hnew]
    rw [hadd,findUserIndexById,List.findIdx?_append,hlast]
    simp [findUserIndexById]
  · rw [findUserIndexById_map,findUserIndexById_map,hk,
      map_modify_active User.id k 0 (fun _ => rfl)]
  · rw [findUserIndexById_map,findUserIndexById_map,hk,
      map_modify_active User.id k 1 (fun _ => rfl)]

/-- A list that another client's line does not change still holds. -/
theorem ListView.after (hok : ¬ c.Adopts) (hclient : c.after.clients i = c.before.clients i)
    (hm : (c.before.clients i).mode = .menu) (h : ListView d c.before i) :
    ListView d c.after i := by
  constructor
  · rw [hclient]; exact h.fd
  · rw [hclient]; exact h.ids
  · rw [hclient]; exact h.count
  · rw [hclient]; exact h.others
  · rw [hclient]
    intro id hid
    rw [← h.found id hid]
    refine c.find_after (fun hnew heq => hok ⟨hnew,i,hm,?_⟩)
    rwa [heq]
  · exact h.kept.after

/-- What the client has just been shown holds. -/
theorem ListView.now (hfd : (c.after.clients c.slot).fd = c.client.fd)
    (hcount : (c.after.clients c.slot).menuContactIds.length ≤ maxUsers)
    (hothers : ∀ id ∈ (c.after.clients c.slot).menuContactIds,
      id ≠ (c.after.clients c.slot).userId) : ListView c c.after c.slot :=
  ⟨hfd,rfl,hcount,hothers,fun _ _ => rfl,.refl _⟩

/-- The list that `show_conversation_list` has sent is the last thing sent. -/
theorem printsList_of_list {u : Server} (hafter : c.after = u.showConversationList c.env c.slot)
    (hfd : (u.clients c.slot).fd = c.client.fd) (hsent : c.before.sent <+: u.sent) :
    c.PrintsList := by
  obtain ⟨more,hmore⟩ := hsent
  rw [LineCall.PrintsList,LineCall.sent,hafter,showConversationList_sent,hfd,← hmore,
    List.append_assoc,List.drop_left]
  exact List.suffix_append _ _

theorem printsAdmin_of_page {u : Server} (hafter : c.after = u.showAdminPage c.slot)
    (hfd : (u.clients c.slot).fd = c.client.fd) (hsent : c.before.sent <+: u.sent) :
    c.PrintsAdmin := by
  obtain ⟨more,hmore⟩ := hsent
  have hpage : (u.showAdminPage c.slot).sent =
      u.sent ++ (adminTexts u.users).map (fun text => ((u.clients c.slot).fd,text)) := rfl
  rw [LineCall.PrintsAdmin,LineCall.sent,hafter,hpage,hfd,← hmore,List.append_assoc,List.drop_left]
  exact List.suffix_append _ _

theorem showConversationList_client (u : Server) (env : LineEnv) (i : Slot) :
    (u.showConversationList env i).clients i = { u.clients i with
      menuContactIds := (conversations (u.clients i).userId (u.openMessages env)).map Prod.fst } :=
  Server.setClient_clients_self _ _ _

theorem showConversationList_count {u : Server} {env : LineEnv} (i : Slot) :
    ((u.showConversationList env i).clients i).menuContactIds.length ≤ maxUsers := by
  rw [showConversationList_client,List.length_map]
  exact conversations_length _ _

/-- A list that is shown names nobody but others. -/
theorem showConversationList_others {u : Server} {env : LineEnv} (i : Slot)
    (hdb : ServerWritten (u.disk.messagesDb.getD [])) :
    ∀ id ∈ ((u.showConversationList env i).clients i).menuContactIds,
      id ≠ ((u.showConversationList env i).clients i).userId := by
  have hopen : ServerWritten ((u.openMessages env).getD []) := by
    unfold Server.openMessages
    split_ifs
    · exact hdb
    · exact ⟨[],by simp,rfl⟩
  rw [showConversationList_client]
  intro id hid
  obtain ⟨contact,hcontact,rfl⟩ := List.mem_map.mp hid
  exact conversations_ne hopen contact hcontact

/-- A client that is in the menu after its own line has just been shown the list, or the line has
only been answered. -/
theorem LineCall.own_list (c : LineCall) (hactive : c.client.active = true)
    (hdb : ServerWritten (c.before.disk.messagesDb.getD [])) (h : Views calls c.before)
    (hm : (c.after.clients c.slot).mode = .menu) :
    ∃ d, lastCall LineCall.PrintsList c.slot (calls ++ [c]) = some d ∧ ListView d c.after c.slot := by
  rw [lastCall_concat]
  have hland := c.landing hactive
  generalize hafter : c.after = t at hland hm
  cases hland with
  | list u hmode hfd hdb' hsent =>
    rw [if_pos ⟨rfl,printsList_of_list hafter hfd hsent⟩]
    refine ⟨c,rfl,?_⟩
    rw [← hafter]
    apply ListView.now
    · rw [hafter]
      exact (congrArg Client.fd (Server.setClient_clients_self _ _ _)).trans hfd
    · rw [hafter]
      exact showConversationList_count c.slot
    · rw [hafter]
      exact showConversationList_others c.slot (by rw [hdb']; exact hdb)
  | page u hclient =>
    rcases hclient with hadmin | hfree
    · exact ClientMode.noConfusion (hm.symm.trans (congrArg Client.mode hadmin))
    · exact ClientMode.noConfusion (hm.symm.trans (congrArg Client.mode hfree))
  | away t haway =>
    rw [hm] at haway
    exact absurd haway (by decide)
  | stay t htells =>
    obtain ⟨sent,rfl⟩ := htells
    obtain ⟨d,hd,hview⟩ := h.list c.slot hm
    split_ifs
    · refine ⟨c,rfl,?_⟩
      rw [← hafter]
      apply ListView.now
      · rw [hafter]
        rfl
      · rw [hafter]
        exact hview.count
      · rw [hafter]
        exact hview.others
    · exact ⟨d,hd,hview.fd,hview.ids,hview.count,hview.others,hview.found,hview.kept⟩

theorem LineCall.own_admin (c : LineCall) (hactive : c.client.active = true)
    (h : Views calls c.before) (hm : (c.after.clients c.slot).mode = .admin) :
    ∃ d, lastCall LineCall.PrintsAdmin c.slot (calls ++ [c]) = some d ∧
      AdminView d c.after c.slot := by
  rw [lastCall_concat]
  have hland := c.landing hactive
  generalize hafter : c.after = t at hland hm
  cases hland with
  | list u hmode =>
    have hmenu : ((u.showConversationList c.env c.slot).clients c.slot).mode = .menu :=
      (congrArg Client.mode (Server.setClient_clients_self _ _ _)).trans hmode
    exact ClientMode.noConfusion (hm.symm.trans hmenu)
  | page u hclient hsent =>
    rcases hclient with hadmin | hfree
    · have hfd : (u.clients c.slot).fd = c.client.fd := by
        rw [hadmin]
        rfl
      rw [if_pos ⟨rfl,printsAdmin_of_page hafter hfd hsent⟩]
      refine ⟨c,rfl,hfd,?_⟩
      rw [hafter]
      exact .refl _
    · exact ClientMode.noConfusion (hm.symm.trans (congrArg Client.mode hfree))
  | away t haway =>
    rw [hm] at haway
    exact absurd haway (by decide)
  | stay t htells =>
    obtain ⟨sent,rfl⟩ := htells
    obtain ⟨d,hd,hview⟩ := h.admin c.slot hm
    split_ifs
    · refine ⟨c,rfl,rfl,?_⟩
      rw [hafter]
      exact .refl _
    · exact ⟨d,hd,hview.fd,hview.kept⟩

/-- Another client that is still logged in has not been touched. -/
theorem LineCall.other_same (c : LineCall) (hi : i ≠ c.slot)
    (hm : (c.after.clients i).mode ≠ .login) : c.after.clients i = c.before.clients i := by
  rcases c.other_slot hi with hsame | hfree
  · exact hsame
  · rw [hfree] at hm
    exact absurd rfl hm

theorem LineCall.views (c : LineCall) (hactive : c.client.active = true) (hok : ¬ c.Adopts)
    (hdb : ServerWritten (c.before.disk.messagesDb.getD [])) (h : Views calls c.before) :
    Views (calls ++ [c]) c.after where
  list i hm := by
    by_cases hi : i = c.slot
    · subst hi
      exact c.own_list hactive hdb h hm
    · have hclient := c.other_same hi (by rw [hm]; decide)
      rw [lastCall_concat,if_neg (fun hc => hi hc.1.symm)]
      rw [hclient] at hm
      obtain ⟨d,hd,hview⟩ := h.list i hm
      exact ⟨d,hd,hview.after hok hclient hm⟩
  admin i hm := by
    by_cases hi : i = c.slot
    · subst hi
      exact c.own_admin hactive h hm
    · have hclient := c.other_same hi (by rw [hm]; decide)
      rw [lastCall_concat,if_neg (fun hc => hi hc.1.symm)]
      rw [hclient] at hm
      obtain ⟨d,hd,hview⟩ := h.admin i hm
      exact ⟨d,hd,by rw [hclient]; exact hview.fd,hview.kept.after⟩

/-- An accepted message is one between two users. -/
theorem LineCall.serverWritten (c : LineCall) (henv : c.env.Fits) (hfits : c.before.Fits)
    (hs : c.before.Sessions) (h : ServerWritten (c.before.disk.messagesDb.getD [])) :
    ServerWritten (c.after.disk.messagesDb.getD []) := by
  obtain ⟨ms,hms,hdb⟩ := h
  refine ⟨ms ++ c.stored.toList,?_,by rw [c.messagesDb,hdb,List.flatMap_append]⟩
  rw [List.forall_mem_append]
  refine ⟨hms,fun m hm => ?_⟩
  have hstored : c.stored = some m := by simpa using hm
  refine ⟨c.stored_storable hfits henv hstored,?_⟩
  obtain ⟨a,ha,rfl⟩ := Option.map_eq_some_iff.mp hstored
  obtain ⟨rfl,hmode,-⟩ := LineCall.accepted_some ha
  exact fun heq => ((hs.slot c.slot).chat hmode).1 heq.symm

/-- What every moment of a run has in which ids stay unique and no listed id is given away. -/
structure Paged (calls : List LineCall) (s : Server) : Prop where
  named : s.Named
  fits : s.Fits
  written : ServerWritten (s.disk.messagesDb.getD [])
  views : Views calls s

theorem Trace.paged {s t : Server} {as : List LineCall} (h : Trace s calls t)
    (hok : ∀ c ∈ calls, ¬ c.Collides ∧ ¬ c.Adopts ∧ c.env.Fits) (hs : Paged as s) :
    Paged (as ++ calls) t := by
  refine h.invariant_from (I := Paged) (Q := fun c => ¬ c.Collides ∧ ¬ c.Adopts ∧ c.env.Fits) ?_ ?_
    hok hs
  · intro cs s t hidle hs
    exact ⟨⟨hidle.sound hs.named.toSound,by rw [hidle.users]; exact hs.named.ids⟩,
      hidle.fits hs.fits,by rw [hidle.disk]; exact hs.written,hidle.views hs.views⟩
  · rintro cs c hactive ⟨hcollides,hadopts,henv⟩ hs
    exact ⟨⟨c.sound hactive hcollides hs.named.toSound,
        c.ids_nodup hs.named.table hcollides hs.named.ids⟩,
      c.fits hs.fits,c.serverWritten henv hs.fits hs.named.sessions hs.written,
      c.views hactive hadopts hs.written hs.views⟩

end Views

section Numbers

namespace LineCall

/-- In the menu a client types the number `n`. -/
def Selects (c : LineCall) (n : ℤ) : Prop :=
  c.client.mode = .menu ∧ readNumber c.text = some (n,[])

/-- The number that a command of the admin page is typed with. -/
def typed (c : LineCall) : Option ℤ :=
  match c.text with
  | [] => none
  | letter::rest =>
    if [letter] = ascii "d" ∨ [letter] = ascii "r" then (readNumber rest).map Prod.fst else none

/-- The number typed in the admin page is not an `int`, and `%d` makes of it one that is in the
table. -/
def Wraps (c : LineCall) : Prop := c.client.mode = .admin ∧ ∃ n ∈ c.typed,
  wrapInt (clampLong n) ≠ n ∧ 1 ≤ wrapInt (clampLong n) ∧
    wrapInt (clampLong n) ≤ c.before.users.length

/-- Of all accounts the line changes `u`, the one at position `k`, and closes sessions of no other. -/
structure ActsOn (c : LineCall) (k : ℕ) (u : User) : Prop where
  entry : c.before.users[k]? = some u
  users : ∃ active, c.after.users = c.before.users.modify k (fun u => { u with active := active })
  sessions : ∀ j, c.after.clients j ≠ c.before.clients j →
    (c.before.clients j).loggedIn = true ∧ (c.before.clients j).userId = u.id
  only : ∀ v ∈ c.before.users, v.id = u.id → v = u
  messages : c.after.disk.messagesDb = c.before.disk.messagesDb

/-- The numbers that the client types still mean what it has last been shown: a number in the menu
opens the chat with the user it was printed for, and one that was not printed does nothing; a
command of the admin page acts on nobody but the user printed under its number, or on one who has
been appended since. -/
structure NumbersKept (c : LineCall) (calls : List LineCall) : Prop where
  menu : ∀ n, c.Selects n → ∃ d, lastCall PrintsList c.slot calls = some d ∧
    d.client.fd = c.client.fd ∧
    (∀ e ∈ d.after.listed c.slot, (e.number : ℤ) = n → c.Opens e.id ∧
      ∃ k, findUserIndexById d.after.users e.id = some k ∧
        findUserIndexById c.before.users e.id = some k ∧
        (userAt c.before.users k).username = e.username) ∧
    ((∀ e ∈ d.after.listed c.slot, (e.number : ℤ) ≠ n) → c.before.Tells c.after)
  admin : c.client.mode = .admin → c.text ≠ ascii "q" →
    ∃ d, lastCall PrintsAdmin c.slot calls = some d ∧ d.client.fd = c.client.fd ∧
      (c.before.Tells c.after ∨ ∃ (k : ℕ) (u : User), c.typed = some ((k : ℤ)+1) ∧ c.ActsOn k u ∧
        ∀ v, d.after.users[k]? = some v → v.id = u.id ∧ v.username = u.username)

instance (c : LineCall) (n : ℤ) : Decidable (c.Selects n) := by
  unfold Selects
  infer_instance

instance : DecidablePred Wraps := fun c => by
  unfold Wraps
  infer_instance

end LineCall

variable {s : Server} {env : LineEnv} {i : Slot} {c d : LineCall} {calls : List LineCall} {n : ℤ}

/-- What a number does in the menu. -/
theorem processMenu_number {line : Bytes} (hn : readNumber line = some (n,[]))
    (hcount : (s.clients i).menuContactIds.length ≤ maxUsers) : (s.processMenu env i line).1 =
      if 1 ≤ n ∧ n ≤ (s.clients i).menuContactIds.length then
        s.openChat env i ((s.clients i).menuContactIds.getD (n-1).toNat 0)
      else s.sendText (s.clients i).fd (ascii "Invalid command.\n> ") := by
  have hne : ∀ text, readNumber text = none → line ≠ text := by
    rintro text htext rfl
    rw [hn] at htext
    contradiction
  have hpre : line.take 2 ≠ ascii "n " := by
    intro htake
    have hline : line = ascii "n " ++ line.drop 2 := by rw [← htake,List.take_append_drop]
    rw [hline] at hn
    have hnone : ∀ rest, readNumber (ascii "n " ++ rest) = none := fun rest => rfl
    rw [hnone] at hn
    contradiction
  have hempty : line ≠ [] := hne [] rfl
  simp only [Server.processMenu,if_neg (hne (ascii "q") rfl),if_neg (hne (ascii "r") rfl),
    if_neg (hne (ascii "a") rfl),if_neg hpre,strtol_of_readNumber hn]
  have hsmall : maxUsers = 1000 := rfl
  have hiff := clampLong_inside (n := n) (k := (s.clients i).menuContactIds.length) (by omega)
  by_cases hin : 1 ≤ n ∧ n ≤ (s.clients i).menuContactIds.length
  · have hclamp : clampLong n = n := clampLong_eq (by omega)
    rw [if_pos ⟨hempty,trivial,hiff.mpr hin⟩,if_pos hin,hclamp]
  · rw [if_neg (fun h => hin (hiff.mp h.2.2)),if_neg hin]

/-- The entries of a printed list. -/
theorem mem_listed {e : Listed} : e ∈ s.listed i ↔ 1 ≤ e.number ∧
    (s.clients i).menuContactIds[e.number-1]? = some e.id ∧
    ∃ k, findUserIndexById s.users e.id = some k ∧ (userAt s.users k).username = e.username := by
  rw [Server.listed,List.mem_filterMap]
  constructor
  · rintro ⟨⟨id,position⟩,hmem,he⟩
    cases hk : findUserIndexById s.users id with
    | none => simp [hk] at he
    | some k =>
      simp only [hk] at he
      obtain rfl := Option.some.inj he
      refine ⟨Nat.le_add_left 1 position,?_,k,hk,rfl⟩
      exact List.mk_mem_zipIdx_iff_getElem?.mp hmem
  · rintro ⟨hpos,hget,k,hk,hname⟩
    refine ⟨(e.id,e.number-1),List.mk_mem_zipIdx_iff_getElem?.mpr hget,?_⟩
    simp only [hk,hname,Nat.sub_add_cancel hpos]

/-- `%d` keeps the low bits of a number that is too large. -/
example : scan Server.adminFormat (ascii "d 4294967298") = [.text (ascii "d"),.int 2] := by decide

/-- A command that is read with a number of the table was typed with that number. -/
theorem typed_of_scan {letter : Bytes} {k : ℕ} (hletter : letter = ascii "d" ∨ letter = ascii "r")
    (hscan : scan Server.adminFormat c.text = [.text letter,.int (k+1)])
    (hm : c.client.mode = .admin) (hk : k < c.before.users.length) (hok : ¬ c.Wraps) :
    c.typed = some ((k : ℤ)+1) := by
  cases htext : c.text with
  | nil =>
    rw [htext] at hscan
    contradiction
  | cons a rest =>
    rw [htext,Server.adminFormat] at hscan
    simp only [scan] at hscan
    obtain ⟨hfirst,hrest⟩ := List.cons.inj hscan
    obtain rfl : [a] = letter := Value.text.inj hfirst
    rw [readLong_eq,readNumber_skipSpace] at hrest
    cases hnumber : readNumber rest with
    | none => simp [hnumber] at hrest
    | some r =>
      have htyped : c.typed = some r.1 := by
        rw [LineCall.typed,htext]
        simp only [if_pos hletter,hnumber,Option.map_some]
      have hwrap : wrapInt (clampLong r.1) = (k : ℤ)+1 := by
        rw [hnumber] at hrest
        simpa [wrapInt] using hrest
      rw [htyped]
      by_contra hne
      refine hok ⟨hm,r.1,htyped,?_,by omega,by omega⟩
      intro heq
      rw [heq] at hwrap
      exact hne (congrArg some hwrap)

theorem sessions_of_close {u : User} {k : ℕ} {ok : Bool} {j : Slot}
    (h : ((s.withActive k 0 ok).closeSession (s.findClientByUserId u.id)).clients j ≠ s.clients j) :
    (s.clients j).loggedIn = true ∧ (s.clients j).userId = u.id := by
  cases htarget : s.findClientByUserId u.id with
  | none =>
    rw [htarget] at h
    exact absurd rfl h
  | some target =>
    rw [htarget] at h
    by_cases hj : j = target
    · rw [hj]
      exact (findClientByUserId_some htarget).2
    · refine absurd ?_ h
      change ((s.withActive k 0 ok).disconnectClient target).clients j = _
      unfold Server.disconnectClient
      split_ifs
      · rfl
      · exact Server.setClient_clients_of_ne _ _ hj

/-- The menu: a number means what the last list shows. -/
theorem Paged.menu (h : Paged calls c.before) (hn : c.Selects n) : ∃ d, lastCall LineCall.PrintsList c.slot calls = some d ∧
      d.client.fd = c.client.fd ∧
      (∀ e ∈ d.after.listed c.slot, (e.number : ℤ) = n → c.Opens e.id ∧
        ∃ k, findUserIndexById d.after.users e.id = some k ∧
          findUserIndexById c.before.users e.id = some k ∧
          (userAt c.before.users k).username = e.username) ∧
      ((∀ e ∈ d.after.listed c.slot, (e.number : ℤ) ≠ n) → c.before.Tells c.after) := by
  obtain ⟨hm,hnumber⟩ := hn
  obtain ⟨d,hd,hview⟩ := h.views.list c.slot hm
  have hafter := LineCall.after_menu hm
  rw [processMenu_number hnumber hview.count] at hafter
  refine ⟨d,hd,hview.fd.symm,?_,?_⟩
  · rintro e he rfl
    obtain ⟨hpos,hget,k,hk,hname⟩ := mem_listed.mp he
    have hlt := (List.getElem?_eq_some_iff.mp hget).1
    rw [← hview.ids] at hget hlt
    have hmem : e.id ∈ (c.before.clients c.slot).menuContactIds := List.mem_of_getElem? hget
    have hfound := hview.found e.id hmem
    have hself := hview.others e.id hmem
    have hindex : ((e.number : ℤ)-1).toNat = e.number-1 := by omega
    rw [if_pos (by omega),hindex,List.getD_eq_getElem?_getD,hget] at hafter
    rw [hk] at hfound
    have hopened : Server.Tells _ (c.before.openChat c.env c.slot e.id) :=
      openChat_tells hfound hself
    obtain ⟨sent,htells⟩ := hopened
    have hclient : c.after.clients c.slot = { c.before.clients c.slot with
        mode := .chat, chatPartnerId := e.id } := by
      rw [hafter]
      simp only [Option.getD_some]
      rw [htells]
      exact Server.setClient_clients_self _ _ _
    refine ⟨⟨hm,by rw [hclient],by rw [hclient]⟩,k,hk,hfound,?_⟩
    have huser := userAt_of_lt (List.findIdx?_eq_some_iff_getElem.mp hk).1
    obtain ⟨v,hv,-,hvname⟩ := hview.kept k _ huser
    rw [userAt,List.getD_eq_getElem?_getD,hv,← hname]
    exact hvname
  · intro hunlisted
    by_cases hin : 1 ≤ n ∧ n ≤ (c.before.clients c.slot).menuContactIds.length
    · rw [if_pos hin] at hafter
      have hlt : (n-1).toNat < (c.before.clients c.slot).menuContactIds.length := by omega
      rw [List.getD_eq_getElem _ _ hlt] at hafter
      have hmem := List.getElem_mem hlt
      have hnone : findUserIndexById c.before.users
          (c.before.clients c.slot).menuContactIds[(n-1).toNat] = none := by
        rw [hview.found _ hmem]
        cases hk : findUserIndexById d.after.users
            (c.before.clients c.slot).menuContactIds[(n-1).toNat] with
        | none => rfl
        | some k =>
          refine absurd ?_ (hunlisted ⟨(n-1).toNat+1,_,(userAt d.after.users k).username⟩
            (mem_listed.mpr ⟨Nat.le_add_left 1 _,?_,k,hk,rfl⟩))
          · push_cast
            omega
          · rw [← hview.ids]
            exact List.getElem?_eq_getElem hlt
      rw [hafter]
      simp only [Server.openChat,hnone]
      exact (Server.Tells.refl _).text _ _
    · rw [if_neg hin] at hafter
      rw [hafter]
      exact (Server.Tells.refl _).text _ _

/-- The admin page: a command means what the last page shows. -/
theorem Paged.admin (h : Paged calls c.before) (hok : ¬ c.Wraps) (hm : c.client.mode = .admin)
    (hq : c.text ≠ ascii "q") : ∃ d, lastCall LineCall.PrintsAdmin c.slot calls = some d ∧
      d.client.fd = c.client.fd ∧ (c.before.Tells c.after ∨ ∃ (k : ℕ) (u : User),
        c.typed = some ((k : ℤ)+1) ∧ c.ActsOn k u ∧
        ∀ v, d.after.users[k]? = some v → v.id = u.id ∧ v.username = u.username) := by
  obtain ⟨d,hd,hview⟩ := h.views.admin c.slot hm
  refine ⟨d,hd,hview.fd.symm,?_⟩
  have hafter := LineCall.after_admin hm
  have hshown : ∀ {k : ℕ} {u : User}, c.before.users[k]? = some u →
      ∀ v, d.after.users[k]? = some v → v.id = u.id ∧ v.username = u.username := by
    intro k u hk v hv
    obtain ⟨w,hw,hid,hname⟩ := hview.kept k v hv
    obtain rfl : w = u := Option.some.inj (hw.symm.trans hk)
    exact ⟨hid.symm,hname.symm⟩
  have honly : ∀ {k : ℕ} {u : User}, c.before.users[k]? = some u →
      ∀ v ∈ c.before.users, v.id = u.id → v = u := fun hk v hv hid =>
    eq_of_id h.named.ids hv (List.mem_of_getElem? hk) hid
  rw [hafter]
  rcases processAdmin_cases c.before c.env c.slot c.text with ⟨hquit,-⟩ | ⟨htells,-⟩ |
    ⟨k,u,hk,hremove | hrestore⟩
  · exact absurd hquit hq
  · exact Or.inl htells
  · obtain ⟨hscan,-,-,ok,t,⟨sent,rfl⟩,-,hpage⟩ := hremove
    have hlt := (List.getElem?_eq_some_iff.mp hk).1
    refine Or.inr ⟨k,u,typed_of_scan (Or.inl rfl) hscan hm hlt hok,⟨hk,⟨0,?_⟩,?_,honly hk,?_⟩,
      hshown hk⟩
    · rw [hafter,hpage]
      exact closeSession_users (c.before.withActive k 0 ok) _
    · rw [hafter,hpage]
      exact fun j hj => sessions_of_close hj
    · rw [hafter,hpage]
      change ((c.before.withActive k 0 ok).closeSession _).disk.messagesDb = _
      rw [closeSession_disk]
      cases ok <;> rfl
  · obtain ⟨hscan,-,ok,t,⟨sent,rfl⟩,-,hpage⟩ := hrestore
    have hlt := (List.getElem?_eq_some_iff.mp hk).1
    refine Or.inr ⟨k,u,typed_of_scan (Or.inr rfl) hscan hm hlt hok,⟨hk,⟨1,?_⟩,?_,honly hk,?_⟩,
      hshown hk⟩
    · rw [hafter,hpage]
      rfl
    · rw [hafter,hpage]
      exact fun j hj => absurd rfl hj
    · rw [hafter,hpage]
      change (c.before.withActive k 1 ok).disk.messagesDb = _
      cases ok <;> rfl

theorem boot_paged {users : List User} (hfits : TableFits users) (hids : (users.map User.id).Nodup)
    (disk : Disk) (hdb : ServerWritten (disk.messagesDb.getD [])) (serverFd : ℤ) :
    Paged [] (Server.boot users disk serverFd []) where
  named := ⟨boot_sound hfits disk serverFd,hids⟩
  fits := boot_fits hfits disk serverFd
  written := hdb
  views := ⟨fun _ hm => ClientMode.noConfusion hm,fun _ hm => ClientMode.noConfusion hm⟩

/-- Numbers keep their meaning in every run in which no new account gets an id that is taken or
that stands in the list of a client in the menu, and no number typed in the admin page becomes
another one in `%d`. -/
theorem numbers_keep_meaning {users : List User} (hfits : TableFits users)
    (hids : (users.map User.id).Nodup) (disk : Disk)
    (hdb : ServerWritten (disk.messagesDb.getD [])) (serverFd : ℤ) {as : List Entry} {t : Server}
    (hrun : chat.run as (Server.boot users disk serverFd []) = some t) {post : List LineCall}
    (hcalls : runCalls as (Server.boot users disk serverFd []) = calls ++ c::post)
    (henv : ∀ d ∈ calls, d.env.Fits) (hok : ∀ d ∈ calls, ¬ d.Collides ∧ ¬ d.Adopts)
    (hwraps : ¬ c.Wraps) : c.NumbersKept calls := by
  have htrace := run_trace (.init (boot_init users disk serverFd)) hrun
  rw [hcalls] at htrace
  have hpaged := htrace.before.1.paged
    (fun d hd => ⟨(hok d hd).1,(hok d hd).2,henv d hd⟩) (boot_paged hfits hids disk hdb serverFd)
  exact ⟨fun n hn => hpaged.menu hn,hpaged.admin hwraps⟩

theorem gives_steady {as : List Entry} {s : Server}
    (h : ∀ e ∈ as, e.Gives (fun env => env = steadyEnv)) : ∀ c ∈ runCalls as s, c.env.Fits := by
  intro c hc
  rw [runCalls_gives h s c hc]
  exact steadyEnv_fits

theorem session_gives (fd : ℤ) (text : String) :
    ∀ e ∈ Entry.session fd text steadyEnv, e.Gives (fun env => env = steadyEnv) := by
  intro e he
  rcases List.mem_cons.mp he with rfl | he
  · trivial
  · obtain rfl := List.mem_singleton.mp he
    exact fun _ => rfl

/-- Bob writes to ahmet, who opens the chat by its number. -/
def opensByNumber : List Entry :=
  Entry.session 5 "bob\nn ahmet\nhi\n" steadyEnv ++ Entry.session 6 "ahmet\n1\n" steadyEnv

theorem numbers_keep_meaning_bob : ∃ c calls, runCalls opensByNumber firstServer = calls ++ [c] ∧
    c.Selects 1 ∧ c.NumbersKept calls := by
  have hrun : (chat.run opensByNumber firstServer).isSome = true := by decide
  obtain ⟨t,ht⟩ := Option.isSome_iff_exists.mp hrun
  have hlast : ∃ c ∈ (runCalls opensByNumber firstServer).getLast?, c.Selects 1 ∧ ¬ c.Wraps := by
    decide
  obtain ⟨c,hc,hselects,hwraps⟩ := hlast
  have hcalls := List.dropLast_append_getLast? c hc
  have hok : ∀ d ∈ runCalls opensByNumber firstServer, ¬ d.Collides ∧ ¬ d.Adopts := by
    decide +kernel
  have henv : ∀ d ∈ runCalls opensByNumber firstServer, d.env.Fits := by
    refine gives_steady (fun e he => ?_)
    rcases List.mem_append.mp he with he | he
    · exact session_gives _ _ e he
    · exact session_gives _ _ e he
  exact ⟨c,_,hcalls.symm,hselects,numbers_keep_meaning firstTable_fits firstTable_distinct.ids
    ⟨some (usersText firstTable),none⟩ ⟨[],by simp,rfl⟩ 3 ht hcalls.symm
    (fun d hd => henv d (List.dropLast_subset _ hd))
    (fun d hd => hok d (List.dropLast_subset _ hd)) hwraps⟩

/-- A message to ahmet from the account 2, which `users.db` has lost. -/
def lostMessage : HistoryMessage := ⟨0,2,1,ascii "hi"⟩

/-- Ahmet is shown an empty list, eve gets the id 2, and ahmet types a 1. -/
def opensUnlisted : List Entry :=
  Entry.session 5 "ahmet\n" steadyEnv ++ Entry.session 6 "eve\n" steadyEnv ++
    [.lines 5 "1\n" steadyEnv]

/-- A number that was shown next to no name opens the chat with a user who came later. -/
theorem unlisted_number_opens : ¬ ∀ users, TableFits users → (users.map User.id).Nodup →
    ∀ disk : Disk, ServerWritten (disk.messagesDb.getD []) → ∀ serverFd as t,
    chat.run as (Server.boot users disk serverFd []) = some t → ∀ calls c post,
      runCalls as (Server.boot users disk serverFd []) = calls ++ c::post →
      (∀ d ∈ calls, d.env.Fits) → c.NumbersKept calls := by
  intro h
  let disk : Disk := ⟨some (usersText firstTable),some lostMessage.line⟩
  let s := Server.boot firstTable disk 3 []
  have hdb : ServerWritten (disk.messagesDb.getD []) := by
    refine ⟨[lostMessage],?_,(List.flatMap_singleton _ _).symm⟩
    rw [List.forall_mem_singleton]
    exact ⟨⟨by decide,by decide,by decide,by decide,by decide⟩,by decide⟩
  have hrun : (chat.run opensUnlisted s).isSome = true := by decide
  obtain ⟨t,ht⟩ := Option.isSome_iff_exists.mp hrun
  have hlast : ∃ c ∈ (runCalls opensUnlisted s).getLast?, c.Selects 1 ∧
      (c.after.clients c.slot).mode = .chat ∧
      ∀ d ∈ lastCall LineCall.PrintsList c.slot (runCalls opensUnlisted s).dropLast,
        d.after.listed c.slot = [] := by decide
  obtain ⟨c,hc,hselects,hchat,hempty⟩ := hlast
  have hcalls := List.dropLast_append_getLast? c hc
  have henv : ∀ d ∈ runCalls opensUnlisted s, d.env.Fits := by
    refine gives_steady (fun e he => ?_)
    rcases List.mem_append.mp he with he | he
    · rcases List.mem_append.mp he with he | he
      · exact session_gives _ _ e he
      · exact session_gives _ _ e he
    · obtain rfl := List.mem_singleton.mp he
      exact fun _ => rfl
  have hkept := h firstTable firstTable_fits firstTable_distinct.ids disk hdb 3 _ t ht _ c []
    hcalls.symm (fun d hd => henv d (List.dropLast_subset _ hd))
  obtain ⟨d,hd,-,-,hunlisted⟩ := hkept.menu 1 hselects
  obtain ⟨sent,htells⟩ := hunlisted (by rw [hempty d hd]; simp)
  rw [htells] at hchat
  exact ClientMode.noConfusion (hselects.1.symm.trans hchat)

end Numbers

end NetLab.Chat
