import NetLab.Chat.Accounts

/-! The messages over whole runs: a record of `messages.db` is read back as the message that was
accepted, so the history shows the last accepted messages of the two parties. -/
namespace NetLab.Chat

section Window

variable {myId partnerId : ℤ}

theorem pushHistory_rtake (ms : List HistoryMessage) (m : HistoryMessage) :
    pushHistory (ms.rtake 10) m = (ms ++ [m]).rtake 10 := by
  rw [List.rtake_concat_succ,pushHistory]
  have hlen : (ms.rtake 10).length = min 10 ms.length := by
    rw [List.rtake,List.length_drop]
    omega
  rw [hlen]
  split_ifs with hroom
  · have hall : ∀ n, ms.length ≤ n → ms.rtake n = ms := by
      intro n hn
      rw [List.rtake,Nat.sub_eq_zero_of_le hn,List.drop_zero]
    rw [hall 10 (by omega),hall 9 (by omega)]
  · rw [List.rtake,List.rtake,List.drop_drop]
    congr 2
    omega

/-- The window holds the last ten messages of the chat. -/
theorem lastMessages_eq (myId partnerId : ℤ) (db : Bytes) : lastMessages myId partnerId db =
    (((fgetsLines 1400 db).filterMap parseHistory).filter (belongsToChat myId partnerId)).rtake 10 := by
  have hfold : ∀ lines : List Bytes, lines.foldl (collectHistory myId partnerId) [] =
      ((lines.filterMap parseHistory).filter (belongsToChat myId partnerId)).rtake 10 := by
    intro lines
    induction lines using List.reverseRecOn with
    | nil => rfl
    | append_singleton lines line ih =>
      rw [List.foldl_append,ih,List.foldl_cons,List.foldl_nil,collectHistory]
      cases hm : parseHistory line with
      | none => simp [hm]
      | some m =>
        by_cases hbelongs : belongsToChat myId partnerId m = true
        · simp [hm,hbelongs,pushHistory_rtake]
        · simp [hm,hbelongs]
  exact hfold _

end Window

section Records

/-- What `append_message` writes for a message. -/
def HistoryMessage.line (m : HistoryMessage) : Bytes :=
  messageLine m.timestamp m.senderId m.receiverId m.message ++ [newline]

/-- A message that a record can hold. -/
structure HistoryMessage.Storable (m : HistoryMessage) : Prop where
  time : -2^63 ≤ m.timestamp ∧ m.timestamp < 2^63
  sender : -2^31 ≤ m.senderId ∧ m.senderId < 2^31
  receiver : -2^31 ≤ m.receiverId ∧ m.receiverId < 2^31
  short : m.message.length ≤ 1023
  plain : 0 ∉ m.message ∧ newline ∉ m.message

variable {m : HistoryMessage}

theorem decimal_length_long {n : ℤ} (h : -2^63 ≤ n ∧ n < 2^63) : (decimal n).length ≤ 20 := by
  have hlen : (natDecimal n.natAbs).length ≤ 19 := natDecimal_length (by norm_num) (by omega)
  unfold decimal
  split_ifs
  · rw [List.length_cons]
    omega
  · omega

theorem not_mem_messageLine {c : UInt8} (hc : c ≠ 45 ∧ c ≠ bar) (hdigit : isDigit c = false)
    (hmessage : c ∉ m.message) :
    c ∉ messageLine m.timestamp m.senderId m.receiverId m.message := by
  have hn : ∀ n, c ∉ decimal n := fun n => not_mem_decimal hc.1 hdigit
  simp [messageLine,hn,hc.2,hmessage]

namespace HistoryMessage.Storable

theorem cstr_line (h : m.Storable) : cstr m.line = m.line := by
  apply cstr_of_not_mem
  have hzero := not_mem_messageLine (m := m) (by decide) (by decide) h.plain.1
  simp [HistoryMessage.line,hzero,newline]

/-- The fields in front of the text, whatever format follows. -/
theorem scan_fields (h : m.Storable) (fmt : List Directive) :
    scan (.int 64::.literal bar::.int 32::.literal bar::.int 32::.literal bar::fmt) m.line =
      .int m.timestamp::.int m.senderId::.int m.receiverId::scan fmt (m.message ++ [newline]) := by
  have hbar : ∀ s, EndsNumber (bar::s) := fun s => endsNumber_cons (by decide)
  simp only [HistoryMessage.line,messageLine,List.append_assoc,List.cons_append]
  rw [scan_decimal (Or.inr rfl) h.time (hbar _),scan_literal,
    scan_decimal (Or.inl rfl) h.sender (hbar _),scan_literal,
    scan_decimal (Or.inl rfl) h.receiver (hbar _),scan_literal]

/-- A record is read back as its message. -/
theorem parse_line (h : m.Storable) : parseHistory m.line = some m := by
  rw [parseHistory,h.cstr_line,historyFormat,h.scan_fields]
  by_cases hempty : m.message = []
  · have hscan : scan [.upTo 1023 newline] (m.message ++ [newline]) = [] := by
      rw [hempty]
      rfl
    rw [hscan]
    cases m
    simp only at hempty
    rw [hempty]
  · rw [scan_upTo hempty h.short h.plain.2]
    rfl

theorem line_length (h : m.Storable) :
    (messageLine m.timestamp m.senderId m.receiverId m.message).length+1 < 1400 := by
  have htime := decimal_length_long h.time
  have hsender := decimal_length h.sender
  have hreceiver := decimal_length h.receiver
  have hshort := h.short
  simp only [messageLine,List.length_append,List.length_cons]
  omega

end HistoryMessage.Storable

/-- The records of storable messages are read line by line. -/
theorem fgetsLines_records {ms : List HistoryMessage} (h : ∀ m ∈ ms, m.Storable) :
    fgetsLines 1400 (ms.flatMap HistoryMessage.line) = ms.map HistoryMessage.line := by
  have hmap : ms.flatMap HistoryMessage.line =
      (ms.map (fun m => messageLine m.timestamp m.senderId m.receiverId m.message)).flatMap
        (fun l => l ++ [newline]) := by
    rw [List.flatMap_map]
    rfl
  rw [hmap,fgetsLines_lines,List.map_map]
  · rfl
  · intro l hl
    obtain ⟨m,hm,rfl⟩ := List.mem_map.mp hl
    exact not_mem_messageLine (by decide) (by decide) (h m hm).plain.2
  · intro l hl
    obtain ⟨m,hm,rfl⟩ := List.mem_map.mp hl
    exact (h m hm).line_length

theorem endsLine_records (ms : List HistoryMessage) : EndsLine (ms.flatMap HistoryMessage.line) := by
  induction ms with
  | nil => exact endsLine_nil
  | cons m ms ih =>
    rw [List.flatMap_cons]
    exact (endsLine_line _).append ih

theorem parse_records {ms : List HistoryMessage} (h : ∀ m ∈ ms, m.Storable) :
    (ms.map HistoryMessage.line).map parseHistory = ms.map some := by
  rw [List.map_map]
  exact List.map_congr_left (fun m hm => (h m hm).parse_line)

end Records

section Accepted

/-- The message that `process_chat` accepts, if it is one and can be appended. -/
def LineCall.accepted (c : LineCall) : Option HistoryMessage :=
  if c.client.mode = .chat ∧ c.text ≠ ascii "q" ∧ c.text ≠ [] ∧ c.env.appendOpens = true then
    match findUserIndexById c.before.users c.client.chatPartnerId with
    | none => none
    | some k =>
      if (userAt c.before.users k).active = 0 then none
      else some ⟨c.env.now,c.client.userId,c.client.chatPartnerId,c.text⟩
  else none

/-- The message as far as `char clean[MESSAGE_SIZE]` goes. -/
def HistoryMessage.cut (m : HistoryMessage) : HistoryMessage :=
  { m with message := m.message.take (messageSize-1) }

/-- The record of the accepted message. -/
def LineCall.stored (c : LineCall) : Option HistoryMessage := c.accepted.map HistoryMessage.cut

variable {s t : Server} {i : Slot} {c : LineCall} {m : HistoryMessage}

/-- What an accepted message says, and whom it is for. -/
theorem LineCall.accepted_some (h : c.accepted = some m) :
    m = ⟨c.env.now,c.client.userId,c.client.chatPartnerId,c.text⟩ ∧
      c.client.mode = .chat ∧ c.text ≠ ascii "q" ∧ c.text ≠ [] ∧ c.env.appendOpens = true ∧
      ∃ k, findUserIndexById c.before.users c.client.chatPartnerId = some k ∧
        (userAt c.before.users k).active ≠ 0 := by
  unfold LineCall.accepted at h
  split_ifs at h with hcond
  obtain ⟨hm,hq,hempty,hopens⟩ := hcond
  cases hk : findUserIndexById c.before.users c.client.chatPartnerId with
  | none => simp [hk] at h
  | some k =>
    simp only [hk] at h
    split_ifs at h with hactive
    exact ⟨(Option.some.inj h).symm,hm,hq,hempty,hopens,k,rfl,hactive⟩

theorem sanitizeMessage_take {message : Bytes} (h : sanitizeMessage message = message) (n : ℕ) :
    sanitizeMessage (message.take n) = message.take n := by
  induction message generalizing n with
  | nil => simp [sanitizeMessage]
  | cons c message ih =>
    rw [sanitizeMessage] at h
    split_ifs at h with hend hbar
    · obtain ⟨hc,-⟩ := List.cons.inj h
      rw [hbar] at hc
      exact absurd hc (by decide)
    · obtain ⟨-,htail⟩ := List.cons.inj h
      cases n with
      | zero => rfl
      | succ n => rw [List.take_succ_cons,sanitizeMessage,if_neg hend,if_neg hbar,ih htail]

/-- An accepted message is appended to the file before anything is sent. -/
theorem LineCall.after_accepted (h : c.accepted = some m) :
    ∃ k, findUserIndexById c.before.users c.client.chatPartnerId = some k ∧
      c.after = (c.before.withMessage m.timestamp m.senderId m.receiverId m.cut.message).deliver
        c.slot (userAt c.before.users k) c.text := by
  obtain ⟨rfl,hm,hq,hempty,hopens,k,hk,hactive⟩ := accepted_some h
  have hid := (findUserIndexById_some hk).2
  have hclean := sanitizeMessage_take (sanitizeMessage_idem (cstr c.line)) (messageSize-1)
  refine ⟨k,hk,?_⟩
  rw [LineCall.after_chat hm]
  change c.text ≠ _ at hq
  simp only [Server.processChat,if_neg hq,if_neg hempty]
  change findUserIndexById c.before.users (c.before.clients c.slot).chatPartnerId = some k at hk
  rw [hk]
  simp only [if_neg hactive,Server.appendMessage,hopens,Bool.not_true,Bool.false_eq_true,if_false]
  rw [show sanitizeMessage (c.text.take (messageSize-1)) = c.text.take (messageSize-1) from hclean,
    show (userAt c.before.users k).id = c.client.chatPartnerId from hid]
  rfl

/-- Without a message `messages.db` is not written. -/
theorem LineEffect.messagesDb (he : LineEffect s i t) (hm : (s.clients i).mode ≠ .chat) :
    t.disk.messagesDb = s.disk.messagesDb := by
  cases he with
  | leave => rw [disconnectClient_disk]
  | register => rfl
  | unsaved => rw [disconnectClient_disk]; rfl
  | message h => exact absurd h hm
  | remove _ _ _ _ _ _ ok =>
    rw [closeSession_disk]
    cases ok <;> rfl
  | restore _ _ _ _ _ ok => cases ok <;> rfl
  | _ => rfl

/-- A line that is not accepted leaves `messages.db` alone. -/
theorem LineCall.after_rejected (h : c.accepted = none) :
    c.after.disk.messagesDb = c.before.disk.messagesDb := by
  by_cases hm : c.client.mode = .chat
  · rw [LineCall.after_chat hm]
    simp only [Server.processChat]
    by_cases hq : c.text = ascii "q"
    · rw [if_pos hq]
      rfl
    rw [if_neg hq]
    by_cases hempty : c.text = []
    · rw [if_pos hempty]
      rfl
    rw [if_neg hempty]
    by_cases hopens : c.env.appendOpens = true
    · rw [LineCall.accepted,if_pos ⟨hm,hq,hempty,hopens⟩] at h
      change (match findUserIndexById c.before.users (c.before.clients c.slot).chatPartnerId with
        | none => none
        | some k => _) = none at h
      cases hk : findUserIndexById c.before.users (c.before.clients c.slot).chatPartnerId with
      | none => rfl
      | some k =>
        simp only [hk] at h
        split_ifs at h with hactive
        simp only [if_pos hactive]
        rfl
    · cases findUserIndexById c.before.users (c.before.clients c.slot).chatPartnerId with
      | none => rfl
      | some k =>
        simp only [Server.appendMessage,hopens,Bool.not_false,if_true]
        split_ifs
        · rfl
        · rfl
  · obtain ⟨t,ht,sent,hafter⟩ := c.effect
    rw [hafter]
    exact ht.messagesDb hm

/-- What a call adds to `messages.db`. -/
theorem LineCall.messagesDb (c : LineCall) : c.after.disk.messagesDb.getD [] =
    c.before.disk.messagesDb.getD [] ++ c.stored.toList.flatMap HistoryMessage.line := by
  cases h : c.accepted with
  | none => simp [c.after_rejected h,LineCall.stored,h]
  | some m =>
    obtain ⟨k,-,hafter⟩ := c.after_accepted h
    obtain ⟨sent,htells⟩ := deliver_tells (c.before.withMessage m.timestamp m.senderId m.receiverId
      m.cut.message) c.slot (userAt c.before.users k) c.text
    rw [hafter,htells,LineCall.stored,h]
    simp [Server.withMessage,HistoryMessage.line,HistoryMessage.cut]

theorem Idle.disk (h : Idle s t) : t.disk = s.disk := by
  cases h with
  | close i => exact disconnectClient_disk s i
  | _ => rfl

/-- The records of a list of calls. -/
def storedMessages (calls : List LineCall) : List HistoryMessage := calls.filterMap LineCall.stored

theorem Trace.messagesDb {calls : List LineCall} (h : Trace s calls t) :
    t.disk.messagesDb.getD [] =
      s.disk.messagesDb.getD [] ++ (storedMessages calls).flatMap HistoryMessage.line := by
  induction h with
  | refl => simp [storedMessages]
  | idle hidle _ ih =>
    rw [← hidle.disk]
    exact ih
  | line c _ _ ih =>
    rw [ih,c.messagesDb,List.append_assoc,storedMessages,storedMessages,List.filterMap_cons]
    cases c.stored with
    | none => rfl
    | some m => simp

end Accepted

section Fields

/-- What an `int` can hold. -/
def IsInt (n : ℤ) : Prop := intMin ≤ n ∧ n ≤ intMax

instance (n : ℤ) : Decidable (IsInt n) := by
  unfold IsInt
  infer_instance

/-- The ids of a slot are `int`s. -/
def Client.Fits (client : Client) : Prop := IsInt client.userId ∧ IsInt client.chatPartnerId

/-- What the arrays of the server can hold. -/
structure Server.Fits (s : Server) : Prop where
  table : TableFits s.users
  slot : ∀ i, (s.clients i).Fits

/-- The time is a `long`, and a time of day fits the 32 bytes that `strftime` is given for it. -/
structure LineEnv.Fits (env : LineEnv) : Prop where
  now : -2^63 ≤ env.now ∧ env.now < 2^63
  clock : ∀ time, (env.clock time).length ≤ 31

variable {s t : Server} {i : Slot} {calls : List LineCall} {c : LineCall}

theorem isInt_iff {n : ℤ} : IsInt n ↔ -2^31 ≤ n ∧ n < 2^31 := by
  rw [IsInt,intMin,intMax]
  omega

theorem free_fits : Client.free.Fits := ⟨by decide,by decide⟩

theorem connected_fits (fd : ℤ) : (Client.connected fd).Fits :=
  ⟨(by decide : IsInt (-1)),(by decide : IsInt (-1))⟩

theorem fits_setClient {clients : Slot → Client} (h : ∀ i, (clients i).Fits) {client : Client}
    (hc : client.Fits) (j : Slot) : (Function.update clients i client j).Fits := by
  by_cases hj : j = i
  · rw [hj,Function.update_self]
    exact hc
  · rw [Function.update_of_ne hj]
    exact h j

theorem fits_disconnect (h : ∀ i, (s.clients i).Fits) (i j : Slot) :
    ((s.disconnectClient i).clients j).Fits := by
  unfold Server.disconnectClient
  split
  · exact h j
  · exact fits_setClient h free_fits j

theorem LineEffect.slotsFit (htable : TableFits s.users) (h : ∀ i, (s.clients i).Fits)
    (he : LineEffect s i t) : ∀ j, (t.clients j).Fits := by
  cases he with
  | answer => exact h
  | leave => exact fits_disconnect h i
  | login _ u hu => exact fits_setClient h ⟨(htable.entry u hu).id,(h i).2⟩
  | register => exact fits_setClient h ⟨wrapInt_fits _,(h i).2⟩
  | unsaved _ name => exact fits_disconnect (s := s.registered name false) h i
  | refresh => exact fits_setClient h (h i)
  | enterAdmin => exact fits_setClient h (h i)
  | enterChat _ u hu => exact fits_setClient h ⟨(h i).1,(htable.entry u hu).id⟩
  | leaveChat => exact fits_setClient h ⟨(h i).1,(by decide : IsInt (-1))⟩
  | message => exact h
  | leaveAdmin => exact fits_setClient h (h i)
  | remove _ k u _ _ _ ok =>
    intro j
    cases (s.findClientByUserId u.id) with
    | none => exact h j
    | some target => exact fits_disconnect (s := s.withActive k 0 ok) h target j
  | restore => exact h

theorem Idle.fits (h : Idle s t) (hs : s.Fits) : t.Fits := by
  refine ⟨by rw [h.users]; exact hs.table,?_⟩
  cases h with
  | say => exact hs.slot
  | buffer i => exact fits_setClient hs.slot (hs.slot i)
  | close i => exact fits_disconnect hs.slot i
  | recv => exact hs.slot
  | connect i fd => exact fits_setClient hs.slot (connected_fits fd)
  | refuse => exact hs.slot

theorem LineCall.fits (c : LineCall) (h : c.before.Fits) : c.after.Fits := by
  obtain ⟨t,ht,sent,hafter⟩ := c.effect
  have hslots := ht.slotsFit h.table h.slot
  refine ⟨c.tableFits h.table,?_⟩
  rw [hafter]
  exact hslots

theorem Trace.fits (h : Trace s calls t) (hs : s.Fits) : t.Fits :=
  h.invariant (Q := fun _ => True) (fun _ _ => Idle.fits) (fun c _ _ => c.fits)
    (fun _ _ => trivial) hs

theorem boot_fits {users : List User} (h : TableFits users) (disk : Disk) (serverFd : ℤ) :
    (Server.boot users disk serverFd []).Fits := ⟨h,fun _ => free_fits⟩

/-- The record of an accepted message can be read back. -/
theorem LineCall.stored_storable (h : c.before.Fits) (henv : c.env.Fits) {m : HistoryMessage}
    (hm : c.stored = some m) : m.Storable := by
  obtain ⟨a,ha,rfl⟩ := Option.map_eq_some_iff.mp hm
  obtain ⟨rfl,-⟩ := accepted_some ha
  have hplain := sanitizeMessage_plain (zero_not_mem_cstr c.line)
  exact ⟨henv.now,isInt_iff.mp (h.slot c.slot).1,isInt_iff.mp (h.slot c.slot).2,
    List.length_take_le _ _,fun hz => hplain.1 (List.mem_of_mem_take hz),
    fun hn => hplain.2.2 (List.mem_of_mem_take hn)⟩

theorem Trace.stored_storable (h : Trace s calls t) (hs : s.Fits) (henv : ∀ c ∈ calls, c.env.Fits) :
    ∀ m ∈ storedMessages calls, m.Storable := by
  intro m hm
  obtain ⟨c,hc,hstored⟩ := List.mem_filterMap.mp hm
  obtain ⟨as,bs,rfl⟩ := List.append_of_mem hc
  exact c.stored_storable (h.before.1.fits hs) (henv c hc) hstored

/-- The lines of `messages.db` are those it had, and one for every message accepted since. -/
theorem Trace.fgetsLines (h : Trace s calls t) (hs : s.Fits) (henv : ∀ c ∈ calls, c.env.Fits)
    (hwhole : EndsLine (s.disk.messagesDb.getD [])) :
    fgetsLines 1400 (t.disk.messagesDb.getD []) = fgetsLines 1400 (s.disk.messagesDb.getD []) ++
      (storedMessages calls).map HistoryMessage.line := by
  rw [h.messagesDb,fgetsLines_append hwhole,fgetsLines_records (h.stored_storable hs henv)]

end Fields

section Names

variable {s t : Server} {calls : List LineCall} {c : LineCall} {u : User} {k : ℕ}

/-- Every entry keeps its place, its id and its name. -/
theorem LineCall.keeps_entry (hk : c.before.users[k]? = some u) :
    ∃ v, c.after.users[k]? = some v ∧ v.id = u.id ∧ v.username = u.username := by
  have hmodify : ∀ (n : ℕ) (active : ℤ),
      c.after.users = c.before.users.modify n (fun u => { u with active := active }) →
      ∃ v, c.after.users[k]? = some v ∧ v.id = u.id ∧ v.username = u.username := by
    intro n active hn
    rw [hn,List.getElem?_modify,hk]
    by_cases hnk : n = k
    · exact ⟨{ u with active := active },by simp [hnk],rfl,rfl⟩
    · exact ⟨u,by simp [hnk],rfl,rfl⟩
  rcases c.table_cases with hsame | ⟨-,hadd⟩ | ⟨n,-,-,hn⟩ | ⟨n,-,-,hn⟩
  · exact ⟨u,by rw [hsame,hk],rfl,rfl⟩
  · refine ⟨u,?_,rfl,rfl⟩
    rw [hadd,List.getElem?_append_left (List.getElem?_eq_some_iff.mp hk).1,hk]
  · exact hmodify n 0 hn
  · exact hmodify n 1 hn

theorem Trace.keeps_entry (h : Trace s calls t) (hk : s.users[k]? = some u) :
    ∃ v, t.users[k]? = some v ∧ v.id = u.id ∧ v.username = u.username := by
  induction h generalizing u with
  | refl => exact ⟨u,hk,rfl,rfl⟩
  | idle hidle _ ih => exact ih (by rw [hidle.users]; exact hk)
  | line c _ _ ih =>
    obtain ⟨v,hv,hid,hname⟩ := c.keeps_entry hk
    obtain ⟨w,hw,hid',hname'⟩ := ih hv
    exact ⟨w,hw,hid'.trans hid,hname'.trans hname⟩

/-- The name under which the history shows the owner of an id. -/
theorem senderName_of_mem {users : List User} (h : (users.map User.id).Nodup) (hu : u ∈ users) :
    senderName users u.id = u.username := by
  cases hk : findUserIndexById users u.id with
  | none =>
    have hne := List.findIdx?_eq_none_iff.mp hk u hu
    simp at hne
  | some k =>
    obtain ⟨hmem,hid⟩ := findUserIndexById_some hk
    simp only [senderName,hk]
    rw [eq_of_id h hmem hu hid]

theorem senderName_length {users : List User} (h : TableFits users) (id : ℤ) :
    (senderName users id).length ≤ 31 := by
  unfold senderName
  cases hk : findUserIndexById users id with
  | none => exact (by decide : (ascii "unknown").length ≤ 31)
  | some k =>
    have hshort := (h.entry _ (findUserIndexById_some hk).1).name.2
    exact Nat.le_of_lt_succ hshort

/-- What every moment of a run without collisions has, for a table with distinct ids. -/
structure Server.Named (s : Server) : Prop extends s.Sound where
  ids : (s.users.map User.id).Nodup

theorem Trace.named (h : Trace s calls t) (hok : ∀ c ∈ calls, ¬ c.Collides) (hs : s.Named) :
    t.Named := by
  refine h.invariant ?_ ?_ hok hs
  · exact fun s t hidle hs => ⟨hidle.sound hs.toSound,by rw [hidle.users]; exact hs.ids⟩
  · exact fun c hactive hc hs =>
      ⟨c.sound hactive hc hs.toSound,c.ids_nodup hs.table hc hs.ids⟩

end Names

section History

/-- The client opens the chat with `partnerId` from the menu. -/
def LineCall.Opens (c : LineCall) (partnerId : ℤ) : Prop :=
  c.client.mode = .menu ∧ (c.after.clients c.slot).mode = .chat ∧
    (c.after.clients c.slot).chatPartnerId = partnerId

instance (c : LineCall) (partnerId : ℤ) : Decidable (c.Opens partnerId) := by
  unfold LineCall.Opens
  infer_instance

/-- What stands above the history when a chat is opened. -/
def chatHeading (partner : User) : List Bytes :=
  formatted (ascii "\n===== CHAT: " ++ partner.username ++ ascii " =====\n")::
    (if partner.active = 0 then [ascii "[This user has been removed. History is read-only.]\n"]
      else [])

/-- The history with these lines. -/
def historyTexts (lines : List Bytes) : List Bytes :=
  if lines = [] then [ascii "\nNo previous messages.\n"]
  else
    ascii "\n----- LAST 10 MESSAGES -----\n"::
      (lines ++ [ascii "----------------------------\n"])

def chatPrompt : Bytes := ascii "Type q and press Enter to leave chat.\n> "

/-- The line of a message: the time of day, the name of its sender and the text. -/
def shownLine (env : LineEnv) (time : ℤ) (name text : Bytes) : Bytes :=
  ascii "[" ++ env.clock time ++ ascii "] " ++ name ++ ascii ": " ++ text ++ ascii "\n"

/-- The messages between two users that the calls have accepted. -/
def sharedMessages (calls : List LineCall) (a b : ℤ) : List HistoryMessage :=
  (calls.filterMap LineCall.accepted).filter (belongsToChat a b)

/-- The call opens the chat with `partnerId` after the calls `calls`: the client is shown the
last ten messages that these have accepted between the two, a message of at most 1023 bytes with
its whole text and each with the name of the only account that had the sender's id. Every line of
`messages.db` is one of the messages accepted. -/
structure LineCall.ShowsHistory (c : LineCall) (calls : List LineCall) (partnerId : ℤ) : Prop where
  shown : ∃ k, findUserIndexById c.before.users partnerId = some k ∧
    c.after.sent = c.before.sent ++ (chatHeading (userAt c.before.users k) ++
      historyTexts (((sharedMessages calls c.client.userId partnerId).rtake 10).map
        (fun m => shownLine c.env m.timestamp (senderName c.before.users m.senderId)
          m.cut.message)) ++ [chatPrompt]).map (fun text => (c.client.fd,text))
  whole : ∀ d ∈ calls, ∀ m, d.accepted = some m → m.message = d.text ∧
    (d.text.length ≤ 1023 → m.cut.message = d.text)
  signed : ∀ d ∈ calls, ∀ m, d.accepted = some m → ∃ u ∈ d.before.users, u.id = d.client.userId ∧
    (∀ v ∈ d.before.users, v.id = u.id → v = u) ∧
    senderName c.before.users m.senderId = u.username
  records : (fgetsLines 1400 (c.before.disk.messagesDb.getD [])).map parseHistory =
    (calls.filterMap LineCall.accepted).map (fun m => some m.cut)

variable {s t : Server} {i : Slot} {calls : List LineCall} {c : LineCall} {partnerId : ℤ}
  {env : LineEnv} {users : List User} {m : HistoryMessage}

/-- The buffer of `send_format` holds the line of any message. -/
theorem historyText_eq (henv : env.Fits) (htable : TableFits users)
    (hm : m.message.length ≤ 1023) :
    historyText env users m = shownLine env m.timestamp (senderName users m.senderId) m.message := by
  have hclock := henv.clock m.timestamp
  have hname := senderName_length htable m.senderId
  unfold historyText shownLine formatted
  apply List.take_of_length_le
  have hascii : ∀ text : String, (ascii text).length = text.toList.length := by simp [ascii]
  simp only [List.length_append,hascii,String.reduceToList,List.length_cons,List.length_nil]
  omega

theorem showLastMessages_eq (s : Server) (hreads : env.readOpens = true) (i : Slot) :
    s.showLastMessages env i partnerId = s.sendTexts (s.clients i).fd (historyTexts
      ((lastMessages (s.clients i).userId partnerId (s.disk.messagesDb.getD [])).map
        (historyText env s.users))) := by
  unfold Server.showLastMessages Server.openMessages historyTexts
  rw [if_pos hreads]
  cases s.disk.messagesDb with
  | none => rfl
  | some db =>
    simp only [Option.getD_some,List.isEmpty_iff,List.map_eq_nil_iff]
    split_ifs
    · rfl
    · rfl

theorem sendTexts_append (s : Server) (fd : ℤ) (xs ys : List Bytes) :
    (s.sendTexts fd xs).sendTexts fd ys = s.sendTexts fd (xs ++ ys) := by
  simp [Server.sendTexts]

section Open

variable {k : ℕ} (hk : findUserIndexById s.users partnerId = some k)
  (hself : partnerId ≠ (s.clients i).userId)

include hk hself

theorem openChat_tells : (s.setClient i { s.clients i with
    mode := .chat, chatPartnerId := partnerId }).Tells (s.openChat env i partnerId) := by
  simp only [Server.openChat,hk,if_neg hself]
  split_ifs
  · exact ((((Server.Tells.refl _).format _ _).text _ _).trans
      (showLastMessages_tells _ _ _ _)).text _ _
  · exact (((Server.Tells.refl _).format _ _).trans (showLastMessages_tells _ _ _ _)).text _ _

/-- What is sent when a chat is opened. -/
theorem openChat_sent (hreads : env.readOpens = true) : (s.openChat env i partnerId).sent =
    s.sent ++ (chatHeading (userAt s.users k) ++
      historyTexts ((lastMessages (s.clients i).userId partnerId (s.disk.messagesDb.getD [])).map
        (historyText env s.users)) ++ [chatPrompt]).map (fun text => ((s.clients i).fd,text)) := by
  let t := s.setClient i { s.clients i with mode := .chat, chatPartnerId := partnerId }
  have hclient : t.clients i = { s.clients i with mode := .chat, chatPartnerId := partnerId } :=
    Server.setClient_clients_self _ _ _
  have hfd : (t.clients i).fd = (s.clients i).fd := by rw [hclient]
  have hid : (t.clients i).userId = (s.clients i).userId := by rw [hclient]
  let title := formatted (ascii "\n===== CHAT: " ++ (userAt s.users k).username ++ ascii " =====\n")
  let note := ascii "[This user has been removed. History is read-only.]\n"
  -- the heading is one list of texts to the client
  have hheading : s.openChat env i partnerId =
      (((t.sendTexts (t.clients i).fd (chatHeading (userAt s.users k))).showLastMessages env i
        partnerId).sendText (t.clients i).fd chatPrompt) := by
    simp only [Server.openChat,hk,if_neg hself,chatHeading]
    change ((if (userAt s.users k).active = 0 then
      (t.sendTexts (s.clients i).fd [title]).sendTexts (s.clients i).fd [note]
      else t.sendTexts (s.clients i).fd [title]).showLastMessages env i partnerId).sendText
        (s.clients i).fd chatPrompt = _
    rw [hfd]
    by_cases hactive : (userAt s.users k).active = 0
    · rw [if_pos hactive,if_pos hactive,sendTexts_append]
      rfl
    · rw [if_neg hactive,if_neg hactive]
  rw [hheading,showLastMessages_eq _ hreads]
  change (((t.sendTexts (t.clients i).fd (chatHeading (userAt s.users k))).sendTexts (t.clients i).fd
    (historyTexts ((lastMessages (t.clients i).userId partnerId
      (s.disk.messagesDb.getD [])).map (historyText env s.users)))).sendTexts (t.clients i).fd
        [chatPrompt]).sent = _
  rw [sendTexts_append,sendTexts_append,hfd,hid,← List.append_assoc]
  rfl

end Open

/-- A chat that is opened is the one asked for. -/
theorem openChat_opens (hm : (s.clients i).mode = .menu)
    (h : ((s.openChat env i partnerId).clients i).mode = .chat) :
    ((s.openChat env i partnerId).clients i).chatPartnerId = partnerId ∧
      ∃ k, findUserIndexById s.users partnerId = some k ∧ partnerId ≠ (s.clients i).userId := by
  cases hk : findUserIndexById s.users partnerId with
  | none =>
    simp only [Server.openChat,hk] at h
    exact absurd (hm.symm.trans h) (by decide)
  | some k =>
    by_cases hself : partnerId = (s.clients i).userId
    · simp only [Server.openChat,hk,if_pos hself] at h
      exact absurd (hm.symm.trans h) (by decide)
    · have hopened : Server.Tells _ (s.openChat env i partnerId) := openChat_tells hk hself
      obtain ⟨sent,htells⟩ := hopened
      refine ⟨?_,k,rfl,hself⟩
      rw [htells]
      exact congrArg Client.chatPartnerId (Server.setClient_clients_self _ _ _)

/-- Disconnecting brings nobody into a chat. -/
theorem disconnectClient_mode (hm : (s.clients i).mode = .menu) :
    ((s.disconnectClient i).clients i).mode ≠ .chat := by
  unfold Server.disconnectClient
  split_ifs
  · rw [hm]
    decide
  · rw [Server.setClient_clients_self]
    decide

/-- From the menu a client comes into a chat only by `open_chat`. -/
theorem processMenu_opens (hm : (s.clients i).mode = .menu) {line : Bytes}
    (h : ((s.processMenu env i line).1.clients i).mode = .chat) :
    ∃ partnerId, (s.processMenu env i line).1 = s.openChat env i partnerId := by
  simp only [Server.processMenu] at h ⊢
  have hmenu : ∀ client : Client, client.mode = .menu →
      ((s.setClient i client).clients i).mode ≠ .chat := by
    intro client hclient
    rw [Server.setClient_clients_self,hclient]
    decide
  by_cases hq : line = ascii "q"
  · rw [if_pos hq] at h
    exact absurd h (disconnectClient_mode hm)
  rw [if_neg hq] at h ⊢
  by_cases hr : line = ascii "r"
  · rw [if_pos hr] at h
    exact absurd h (hmenu _ hm)
  rw [if_neg hr] at h ⊢
  by_cases ha : line = ascii "a"
  · rw [if_pos ha] at h
    split_ifs at h
    · change ((s.setClient i _).clients i).mode = _ at h
      rw [Server.setClient_clients_self] at h
      exact ClientMode.noConfusion h
    · exact absurd (hm.symm.trans h) (by decide)
  rw [if_neg ha] at h ⊢
  by_cases hn : line.take 2 = ascii "n "
  · rw [if_pos hn] at h ⊢
    cases hk : findUserIndexByName s.users (line.drop 2) with
    | none =>
      simp only [hk] at h
      exact absurd (hm.symm.trans h) (by decide)
    | some k => exact ⟨_,rfl⟩
  rw [if_neg hn] at h ⊢
  split_ifs at h ⊢
  · exact ⟨_,rfl⟩
  · exact absurd (hm.symm.trans h) (by decide)

theorem LineCall.Opens.after (h : c.Opens partnerId) :
    c.after = c.before.openChat c.env c.slot partnerId ∧
      ∃ k, findUserIndexById c.before.users partnerId = some k ∧ partnerId ≠ c.client.userId := by
  obtain ⟨hm,hchat,hpartner⟩ := h
  rw [LineCall.after_menu hm] at hchat hpartner ⊢
  obtain ⟨x,hx⟩ := processMenu_opens hm hchat
  rw [hx] at hchat hpartner ⊢
  obtain ⟨hid,k,hk,hself⟩ := openChat_opens hm hchat
  obtain rfl : x = partnerId := hid.symm.trans hpartner
  exact ⟨rfl,k,hk,hself⟩

theorem storedMessages_eq (calls : List LineCall) :
    storedMessages calls = (calls.filterMap LineCall.accepted).map HistoryMessage.cut := by
  rw [List.map_filterMap]
  rfl

/-- What the history finds in a file that the calls have written. -/
theorem lastMessages_records {db : Bytes} (h : ∀ m ∈ storedMessages calls, m.Storable)
    (hdb : fgetsLines 1400 db = (storedMessages calls).map HistoryMessage.line) (a b : ℤ) :
    lastMessages a b db = ((sharedMessages calls a b).rtake 10).map HistoryMessage.cut := by
  have hparse : (fgetsLines 1400 db).filterMap parseHistory = storedMessages calls := by
    rw [hdb,List.filterMap_map]
    exact (List.filterMap_congr (fun m hm => (h m hm).parse_line)).trans List.filterMap_some
  have hbelongs : (storedMessages calls).filter (belongsToChat a b) =
      (sharedMessages calls a b).map HistoryMessage.cut := by
    rw [storedMessages_eq,List.filter_map]
    rfl
  rw [lastMessages_eq,hparse,hbelongs,List.rtake,List.rtake,List.map_drop,List.length_map]

/-- The sender of an accepted message has a name of its own, and keeps it. -/
theorem LineCall.signed {d : LineCall} (hactive : d.client.active = true) (hd : d.before.Named)
    (h : Trace d.before calls t) (ht : t.Named) (hm : d.accepted = some m) :
    ∃ u ∈ d.before.users, u.id = d.client.userId ∧ (∀ v ∈ d.before.users, v.id = u.id → v = u) ∧
      senderName t.users m.senderId = u.username := by
  obtain ⟨rfl,hmode,-⟩ := accepted_some hm
  have hlogged := (hd.sessions.slot d.slot).loggedIn_of_mode hactive (by
    change d.client.mode ≠ .login
    rw [hmode]
    decide)
  obtain ⟨u,hu,hid,-⟩ := (hd.sessions.slot d.slot).owner hlogged
  obtain ⟨k,hk⟩ := List.mem_iff_getElem?.mp hu
  obtain ⟨v,hv,hvid,hvname⟩ := h.keeps_entry hk
  refine ⟨u,hu,hid,fun w hw hwid => eq_of_id hd.ids hw hu hwid,?_⟩
  have hname := senderName_of_mem ht.ids (List.mem_of_getElem? hv)
  rw [hvid,hvname,hid] at hname
  exact hname

/-- In a run from an absent `messages.db` every chat that is opened shows the last messages
between the two users, if the file can be read and no account has been created while the ids
were exhausted. -/
theorem history_shown {users : List User} (hfits : TableFits users)
    (hids : (users.map User.id).Nodup) (usersDb : Option Bytes) (serverFd : ℤ) {as : List Entry}
    {t : Server} (hrun : chat.run as (Server.boot users ⟨usersDb,none⟩ serverFd []) = some t)
    {post : List LineCall}
    (hcalls : runCalls as (Server.boot users ⟨usersDb,none⟩ serverFd []) = calls ++ c::post)
    (henv : ∀ d ∈ calls ++ [c], d.env.Fits) (hok : ∀ d ∈ calls, ¬ d.Collides)
    (hopens : c.Opens partnerId) (hreads : c.env.readOpens = true) :
    c.ShowsHistory calls partnerId := by
  have htrace := run_trace (.init (boot_init users ⟨usersDb,none⟩ serverFd)) hrun
  rw [hcalls] at htrace
  obtain ⟨hbefore,-,-⟩ := htrace.before
  have hboot : (Server.boot users ⟨usersDb,none⟩ serverFd []).Named :=
    ⟨boot_sound hfits ⟨usersDb,none⟩ serverFd,hids⟩
  have hbootfits := boot_fits hfits ⟨usersDb,none⟩ serverFd
  have henvs : ∀ d ∈ calls, d.env.Fits := fun d hd => henv d (List.mem_append_left _ hd)
  have hstorable := hbefore.stored_storable hbootfits henvs
  have hlines : fgetsLines 1400 (c.before.disk.messagesDb.getD []) =
      (storedMessages calls).map HistoryMessage.line :=
    hbefore.fgetsLines hbootfits henvs endsLine_nil
  refine ⟨?_,?_,?_,?_⟩
  · obtain ⟨hafter,k,hk,hself⟩ := hopens.after
    refine ⟨k,hk,?_⟩
    have htexts : ((lastMessages c.client.userId partnerId
        (c.before.disk.messagesDb.getD [])).map (historyText c.env c.before.users)) =
        ((sharedMessages calls c.client.userId partnerId).rtake 10).map
          (fun m => shownLine c.env m.timestamp (senderName c.before.users m.senderId)
            m.cut.message) := by
      rw [lastMessages_records hstorable hlines,List.map_map]
      refine List.map_congr_left (fun m _ => ?_)
      exact historyText_eq (henv c (List.mem_append_right _ List.mem_cons_self))
        (hbefore.fits hbootfits).table (List.length_take_le _ _)
    rw [hafter,openChat_sent hk hself hreads]
    change c.before.sent ++ (_ ++ historyTexts ((lastMessages c.client.userId partnerId _).map _) ++
      _).map _ = _
    rw [htexts]
    rfl
  · intro d hd m hm
    obtain ⟨rfl,-⟩ := LineCall.accepted_some hm
    exact ⟨rfl,fun hshort => List.take_of_length_le hshort⟩
  · intro d hd m hm
    obtain ⟨as,bs,rfl⟩ := List.append_of_mem hd
    obtain ⟨hd,hactive,hafter⟩ := hbefore.before
    exact d.signed hactive (hd.named (fun e he => hok e (List.mem_append_left _ he)) hboot)
      (.line d hactive hafter) (hbefore.named hok hboot) hm
  · rw [hlines,parse_records hstorable,storedMessages_eq,List.map_map]
    rfl

/-- Bob writes to ahmet, leaves the chat and opens it again. -/
def reopensChat (env : LineEnv) : List Entry :=
  Entry.session 5 "bob\nn ahmet\nhi|there\nq\n" steadyEnv ++ [.lines 5 "n ahmet\n" env]

theorem steadyEnv_fits : steadyEnv.Fits :=
  ⟨by decide,fun _ => (by decide : (ascii "00:00").length ≤ 31)⟩

/-- A file that cannot be opened for reading. -/
def unreadEnv : LineEnv := { steadyEnv with readOpens := false }

theorem reopensChat_fits {env : LineEnv} (henv : env.Fits) (s : Server) :
    ∀ c ∈ runCalls (reopensChat env) s, c.env.Fits := by
  refine runCalls_gives (fun e he => ?_) s
  simp only [reopensChat,Entry.session,List.cons_append,List.nil_append,List.mem_cons,
    List.not_mem_nil,or_false] at he
  rcases he with rfl | rfl | rfl
  · trivial
  · exact fun _ => steadyEnv_fits
  · exact fun _ => henv

/-- The server at its first start, before there is a `messages.db`. -/
theorem firstServer_eq : firstServer = Server.boot firstTable ⟨some (usersText firstTable),none⟩ 3 [] :=
  rfl

theorem history_shown_bob : ∃ c calls, runCalls (reopensChat steadyEnv) firstServer = calls ++ [c] ∧
    c.ShowsHistory calls 1 ∧ sharedMessages calls 2 1 = [⟨0,2,1,ascii "hi/there"⟩] := by
  have hrun : (chat.run (reopensChat steadyEnv) firstServer).isSome = true := by decide
  obtain ⟨t,ht⟩ := Option.isSome_iff_exists.mp hrun
  have hlast : ∃ c ∈ (runCalls (reopensChat steadyEnv) firstServer).getLast?,
      c.Opens 1 ∧ c.env.readOpens = true := by decide
  obtain ⟨c,hc,hopens,hreads⟩ := hlast
  have hcalls := List.dropLast_append_getLast? c hc
  have hshared : sharedMessages (runCalls (reopensChat steadyEnv) firstServer).dropLast 2 1 =
      [⟨0,2,1,ascii "hi/there"⟩] := by decide
  have hok : ∀ d ∈ runCalls (reopensChat steadyEnv) firstServer, ¬ d.Collides := by decide
  refine ⟨c,_,hcalls.symm,?_,hshared⟩
  refine history_shown firstTable_fits firstTable_distinct.ids _ 3 ht hcalls.symm ?_ ?_ hopens hreads
  · rw [hcalls]
    exact reopensChat_fits steadyEnv_fits _
  · exact fun d hd => hok d (List.dropLast_subset _ hd)

/-- A chat that is opened while the file cannot be read shows no messages, although there is one. -/
theorem history_unread : ¬ ∀ users, TableFits users → (users.map User.id).Nodup →
    ∀ usersDb serverFd as t, chat.run as (Server.boot users ⟨usersDb,none⟩ serverFd []) = some t →
    ∀ calls c post partnerId,
      runCalls as (Server.boot users ⟨usersDb,none⟩ serverFd []) = calls ++ c::post →
      (∀ d ∈ calls ++ [c], d.env.Fits ∧ d.env.appendOpens = true) → (∀ d ∈ calls, ¬ d.Collides) →
      c.Opens partnerId → c.ShowsHistory calls partnerId := by
  intro h
  have hrun : (chat.run (reopensChat unreadEnv) firstServer).isSome = true := by decide
  obtain ⟨t,ht⟩ := Option.isSome_iff_exists.mp hrun
  have hlast : ∃ c ∈ (runCalls (reopensChat unreadEnv) firstServer).getLast?, c.Opens 1 ∧
      c.client.userId = 2 ∧ (c.after.sent.drop c.before.sent.length).map Prod.snd =
        [ascii "\n===== CHAT: ahmet =====\n",ascii "\nNo previous messages.\n",chatPrompt] := by
    decide
  obtain ⟨c,hc,hopens,hid,htexts⟩ := hlast
  have hcalls := List.dropLast_append_getLast? c hc
  have hunread : unreadEnv.Fits := ⟨steadyEnv_fits.now,steadyEnv_fits.clock⟩
  have hfits : ∀ d ∈ runCalls (reopensChat unreadEnv) firstServer, d.env.Fits :=
    reopensChat_fits hunread _
  have happends : ∀ d ∈ runCalls (reopensChat unreadEnv) firstServer, d.env.appendOpens = true := by
    decide
  have hok : ∀ d ∈ runCalls (reopensChat unreadEnv) firstServer, ¬ d.Collides := by decide
  have hshows := h firstTable firstTable_fits firstTable_distinct.ids _ _ _ _ ht _ c [] 1
    hcalls.symm (fun d hd => by rw [hcalls] at hd; exact ⟨hfits d hd,happends d hd⟩)
    (fun d hd => hok d (List.dropLast_subset _ hd)) hopens
  obtain ⟨k,hk,hsent⟩ := hshows.shown
  have hshared : (sharedMessages (runCalls (reopensChat unreadEnv) firstServer).dropLast 2 1).rtake 10 =
      [⟨0,2,1,ascii "hi/there"⟩] := by decide
  -- one message makes a history of three texts, between a heading and the prompt
  have hthree : ∀ line, (historyTexts [line]).length = 3 := fun _ => rfl
  have hlength := congrArg List.length htexts
  rw [hsent,List.drop_left,List.map_map,hid,hshared,List.length_map,List.length_append,
    List.length_append,List.map_singleton,hthree] at hlength
  simp only [chatHeading,List.length_cons,List.length_nil] at hlength
  omega

end History

section Live

/-- What a recipient who has the chat open is shown of a message with the text `shown`. -/
def liveLine (name shown : Bytes) : Bytes :=
  ascii "\n" ++ name ++ ascii ": " ++ shown ++ ascii "\n> "

/-- A message is accepted and its recipient, in slot `j`, has the chat with the sender open. -/
def LineCall.Delivers (c : LineCall) (j : Slot) : Prop :=
  c.accepted.isSome = true ∧ c.before.findClientByUserId c.client.chatPartnerId = some j ∧
    (c.before.clients j).mode = .chat ∧ (c.before.clients j).chatPartnerId = c.client.userId

instance (c : LineCall) (j : Slot) : Decidable (c.Delivers j) := by
  unfold LineCall.Delivers
  infer_instance

/-- The lines of `messages.db`. -/
def Server.recordLines (s : Server) : List Bytes := fgetsLines 1400 (s.disk.messagesDb.getD [])

/-- The message goes out live with the text that the history shows for it ever after: its record is
the next line of the file, and stays it. -/
def LineCall.LiveStored (c : LineCall) (j : Slot) : Prop := ∃ shown,
  c.after.sent = c.before.sent ++
    [((c.before.clients j).fd,liveLine (senderName c.before.users c.client.userId) shown),
      (c.client.fd,ascii "> ")] ∧
  ∀ calls t, Trace c.after calls t → (∀ d ∈ calls, d.env.Fits) →
    ∃ m, t.recordLines[c.before.recordLines.length]?.bind parseHistory = some m ∧
      m.senderId = c.client.userId ∧ m.receiverId = c.client.chatPartnerId ∧
      ∀ env : LineEnv, env.Fits → historyText env t.users m =
        shownLine env m.timestamp (senderName t.users m.senderId) shown

variable {c : LineCall} {j : Slot} {m : HistoryMessage}

/-- What is sent for a message that is delivered live. -/
theorem LineCall.Delivers.sent (h : c.Delivers j) : c.after.sent = c.before.sent ++
    [((c.before.clients j).fd,
        formatted (liveLine (senderName c.before.users c.client.userId) c.text)),
      (c.client.fd,ascii "> ")] := by
  obtain ⟨haccepted,hj,hmode,hpartner⟩ := h
  obtain ⟨m,hm⟩ := Option.isSome_iff_exists.mp haccepted
  obtain ⟨k,hk,hafter⟩ := c.after_accepted hm
  have hfind : (c.before.withMessage m.timestamp m.senderId m.receiverId
      m.cut.message).findClientByUserId (userAt c.before.users k).id = some j := by
    rw [(findUserIndexById_some hk).2]
    exact hj
  rw [hafter]
  simp only [Server.deliver,hfind]
  have hopen : (c.before.clients j).mode = .chat ∧
      (c.before.clients j).chatPartnerId = (c.before.clients c.slot).userId := ⟨hmode,hpartner⟩
  change Server.sent (Server.sendText (if (c.before.clients j).mode = .chat ∧
    (c.before.clients j).chatPartnerId = (c.before.clients c.slot).userId then _ else _) _ _) = _
  rw [if_pos hopen]
  change (c.before.sent ++ [_]) ++ [_] = _
  rw [List.append_assoc]
  rfl

/-- The record of an accepted message is the next line of the file from then on. -/
theorem LineCall.record_kept (hfits : c.before.Fits)
    (hwhole : EndsLine (c.before.disk.messagesDb.getD [])) (hactive : c.client.active = true)
    (henv : c.env.Fits) (hm : c.accepted = some m) {calls : List LineCall} {t : Server}
    (h : Trace c.after calls t) (henvs : ∀ d ∈ calls, d.env.Fits) :
    t.recordLines[c.before.recordLines.length]?.bind parseHistory = some m.cut := by
  have htrace : Trace c.before (c::calls) t := .line c hactive h
  have hstored : c.stored = some m.cut := by rw [LineCall.stored,hm]; rfl
  have hlines := htrace.fgetsLines hfits
    (fun d hd => (List.mem_cons.mp hd).elim (fun hdc => hdc ▸ henv) (henvs d)) hwhole
  rw [storedMessages,List.filterMap_cons_some hstored,List.map_cons] at hlines
  rw [Server.recordLines,hlines,Server.recordLines,List.getElem?_append_right le_rfl,Nat.sub_self]
  exact (c.stored_storable hfits henv hstored).parse_line

theorem liveLine_length (name shown : Bytes) :
    (liveLine name shown).length = name.length+shown.length+6 := by
  have hopen : (ascii "\n").length = 1 := rfl
  have hsep : (ascii ": ").length = 2 := rfl
  have hclose : (ascii "\n> ").length = 3 := rfl
  simp only [liveLine,List.length_append,hopen,hsep,hclose]
  omega

theorem shownLine_inj {env : LineEnv} {time : ℤ} {name text text' : Bytes} :
    shownLine env time name text = shownLine env time name text' ↔ text = text' := by
  simp [shownLine]

theorem LineCall.liveStored_iff (hfits : c.before.Fits)
    (hwhole : EndsLine (c.before.disk.messagesDb.getD [])) (hactive : c.client.active = true)
    (henv : c.env.Fits) (h : c.Delivers j) : c.LiveStored j ↔ c.text.length ≤ 1023 := by
  obtain ⟨m,hm⟩ := Option.isSome_iff_exists.mp h.1
  have hrecord : ∀ calls t, Trace c.after calls t → (∀ d ∈ calls, d.env.Fits) →
      t.recordLines[c.before.recordLines.length]?.bind parseHistory = some m.cut :=
    fun _ _ ht henvs => c.record_kept hfits hwhole hactive henv hm ht henvs
  have hhistory : ∀ (env : LineEnv) {calls t}, Trace c.after calls t → env.Fits →
      historyText env t.users m.cut =
        shownLine env m.timestamp (senderName t.users m.senderId) m.cut.message :=
    fun env calls t ht henv => historyText_eq henv (ht.fits (c.fits hfits)).table
      (List.length_take_le _ _)
  have hname := senderName_length hfits.table c.client.userId
  obtain ⟨rfl,-⟩ := accepted_some hm
  have hsent := h.sent
  constructor
  · rintro ⟨shown,hlive,hlater⟩
    obtain ⟨m,hm',-,-,htext⟩ := hlater [] c.after (.refl _) (by simp)
    rw [hrecord [] c.after (.refl _) (by simp)] at hm'
    obtain rfl := Option.some.inj hm'
    -- the history shows the text that was stored
    have hshown : c.text.take 1023 = shown :=
      shownLine_inj.mp ((hhistory c.env (.refl _) henv).symm.trans (htext c.env henv))
    rw [hsent] at hlive
    have hsame : formatted (liveLine (senderName c.before.users c.client.userId) c.text) =
        liveLine (senderName c.before.users c.client.userId) shown := by
      simpa using hlive
    by_contra hlong
    have hlength := congrArg List.length hsame
    rw [formatted,List.length_take,liveLine_length,liveLine_length,← hshown,List.length_take] at hlength
    omega
  · intro hshort
    have hcut : c.text.take 1023 = c.text := List.take_of_length_le hshort
    refine ⟨c.text,?_,fun calls t ht henvs => ?_⟩
    · rw [hsent,formatted,List.take_of_length_le]
      rw [liveLine_length]
      omega
    · refine ⟨_,hrecord calls t ht henvs,rfl,rfl,fun env henv' => ?_⟩
      rw [hhistory env ht henv']
      change shownLine _ _ _ (c.text.take 1023) = _
      rw [hcut]
      rfl

/-- From a `messages.db` that is empty or ends with a line, in every run: a message goes out live
with the text that the history shows exactly if it has at most 1023 bytes. -/
theorem live_stored_iff {users : List User} (hfits : TableFits users) (disk : Disk)
    (hwhole : EndsLine (disk.messagesDb.getD [])) (serverFd : ℤ) {as : List Entry} {t : Server}
    (hrun : chat.run as (Server.boot users disk serverFd []) = some t)
    {calls post : List LineCall}
    (hcalls : runCalls as (Server.boot users disk serverFd []) = calls ++ c::post)
    (henv : ∀ d ∈ calls ++ [c], d.env.Fits) (h : c.Delivers j) :
    c.LiveStored j ↔ c.text.length ≤ 1023 := by
  have htrace := run_trace (.init (boot_init users disk serverFd)) hrun
  rw [hcalls] at htrace
  obtain ⟨hbefore,hactive,-⟩ := htrace.before
  have hbefore' : c.before.disk.messagesDb.getD [] = disk.messagesDb.getD [] ++
      (storedMessages calls).flatMap HistoryMessage.line := hbefore.messagesDb
  refine c.liveStored_iff (hbefore.fits (boot_fits hfits disk serverFd)) ?_ hactive
    (henv c (List.mem_append_right _ List.mem_cons_self)) h
  rw [hbefore']
  exact hwhole.append (endsLine_records _)

/-- Bob and ahmet have their chat open. -/
def bothInChat : List Entry :=
  Entry.session 5 "bob\nn ahmet\n" steadyEnv ++ Entry.session 6 "ahmet\nn bob\n" steadyEnv

/-- Bob writes a line of `n+1` letters, in two chunks. -/
def bobWrites (n : ℕ) : List Entry :=
  bothInChat ++ [{ fd := 5, recv := .data (List.replicate n 120) (fun _ => steadyEnv) },
    { fd := 5, recv := .data [120,newline] (fun _ => steadyEnv) }]

theorem bobWrites_fits (n : ℕ) (s : Server) : ∀ c ∈ runCalls (bobWrites n) s, c.env.Fits := by
  refine runCalls_gives (fun e he => ?_) s
  simp only [bobWrites,bothInChat,Entry.session,List.cons_append,List.nil_append,List.mem_cons,
    List.not_mem_nil,or_false] at he
  rcases he with rfl | rfl | rfl | rfl | rfl | rfl
  · trivial
  · exact fun _ => steadyEnv_fits
  · trivial
  · exact fun _ => steadyEnv_fits
  · exact fun _ => steadyEnv_fits
  · exact fun _ => steadyEnv_fits

theorem live_stored_short : ∃ c ∈ runCalls (bobWrites 3) firstServer, c.LiveStored 1 := by
  have hrun : (chat.run (bobWrites 3) firstServer).isSome = true := by decide
  obtain ⟨t,ht⟩ := Option.isSome_iff_exists.mp hrun
  have hlast : ∃ c ∈ (runCalls (bobWrites 3) firstServer).getLast?,
      c.Delivers 1 ∧ c.text.length = 4 := by decide
  obtain ⟨c,hc,hdelivers,hlength⟩ := hlast
  have hcalls := List.dropLast_append_getLast? c hc
  refine ⟨c,List.mem_of_getLast? hc,?_⟩
  refine (live_stored_iff firstTable_fits ⟨some (usersText firstTable),none⟩ endsLine_nil 3 ht
    hcalls.symm ?_ hdelivers).mpr (by omega)
  rw [hcalls]
  exact bobWrites_fits 3 _

/-- Of a line of 1024 bytes all are shown live and 1023 stored. -/
theorem long_message_differs : ¬ ∀ users, TableFits users → ∀ disk : Disk,
    EndsLine (disk.messagesDb.getD []) → ∀ serverFd as t,
    chat.run as (Server.boot users disk serverFd []) = some t →
    ∀ calls c post j, runCalls as (Server.boot users disk serverFd []) = calls ++ c::post →
      (∀ d ∈ calls ++ [c], d.env.Fits) → c.Delivers j → c.LiveStored j := by
  intro h
  have hrun : (chat.run (bobWrites 1023) firstServer).isSome = true := by decide +kernel
  obtain ⟨t,ht⟩ := Option.isSome_iff_exists.mp hrun
  have hlast : ∃ c ∈ (runCalls (bobWrites 1023) firstServer).getLast?,
      c.Delivers 1 ∧ c.text.length = 1024 := by decide +kernel
  obtain ⟨c,hc,hdelivers,hlength⟩ := hlast
  have hcalls := List.dropLast_append_getLast? c hc
  have henv : ∀ d ∈ (runCalls (bobWrites 1023) firstServer).dropLast ++ [c], d.env.Fits := by
    rw [hcalls]
    exact bobWrites_fits 1023 _
  have hlive := h firstTable firstTable_fits ⟨some (usersText firstTable),none⟩ endsLine_nil _ _ _
    ht _ c [] 1 hcalls.symm henv hdelivers
  have htrace := run_trace (.init (boot_init firstTable _ 3)) ht
  rw [← firstServer_eq,← hcalls] at htrace
  obtain ⟨hbefore,hactive,-⟩ := htrace.before
  have hfits := hbefore.fits (boot_fits firstTable_fits _ 3)
  have hwhole : EndsLine (c.before.disk.messagesDb.getD []) := by
    rw [hbefore.messagesDb]
    exact endsLine_nil.append (endsLine_records _)
  rw [c.liveStored_iff hfits hwhole hactive
    (henv c (List.mem_append_right _ List.mem_cons_self)) hdelivers] at hlive
  omega

end Live

end NetLab.Chat
