import NetLab.Chat.Accounts

/-! What a restart makes of `users.db`: a saved table is loaded as it was, and when the rewriting
of a file in an older format is stable. -/
namespace NetLab.Chat

/-- The answers with which `load_users` succeeds. -/
def steadyLoad : LoadAnswers := ⟨true,⟨true,true⟩⟩

section RoundTrip

/-- A name as the file keeps it: 1 to 31 bytes without NUL, separator and newline. -/
structure KeptName (name : Bytes) : Prop where
  nonempty : name ≠ []
  short : name.length ≤ 31
  plain : 0 ∉ name ∧ bar ∉ name ∧ newline ∉ name

/-- A table that the file can hold, in which the first ahmet is an active admin. -/
structure Restartable (users : List User) : Prop where
  count : users.length ≤ maxUsers
  storable : ∀ u ∈ users, u.Storable
  admin : ∃ k u, findUserIndexByName users ahmet = some k ∧ users[k]? = some u ∧ u.active = 1 ∧
    u.isAdmin = 1

/-- The last save has succeeded, or there has been none. -/
def lastSaved (journal : List Journal) : Bool :=
  journal.foldl (fun last e => match e with | .save ok => ok | _ => last) true

variable {users : List User}

/-- A change that has nothing to do to an entry leaves the list as it is. -/
theorem modify_eq_self {k : ℕ} {u : User} {change : User → User} (hk : users[k]? = some u)
    (hu : change u = u) : users.modify k change = users := by
  apply List.ext_getElem?
  intro n
  rw [List.getElem?_modify]
  by_cases hn : k = n
  · subst hn
    rw [hk]
    simp [hu]
  · simp [hn]

theorem ensureAdmin_same {k : ℕ} {u : User} (hname : findUserIndexByName users ahmet = some k)
    (hk : users[k]? = some u) (hactive : u.active = 1) (hadmin : u.isAdmin = 1) :
    ensureAdmin users = some users := by
  have hsame : ({ u with active := 1, isAdmin := 1 } : User) = u := by
    cases u
    simp only at hactive hadmin
    rw [hactive,hadmin]
  have hmodify : users.modify k (fun u => { u with active := 1, isAdmin := 1 }) = users :=
    modify_eq_self hk hsame
  unfold ensureAdmin
  rw [hname]
  simp only [hmodify]

/-- Loading a file with this text. -/
theorem loadUsers_steady (text : Bytes) (messagesDb : Option Bytes) {stored : List User}
    (hstored : readUsers (fgetsLines 256 text) [] = stored) (hadmin : ensureAdmin stored = some users) :
    loadUsers steadyLoad ⟨some text,messagesDb⟩ =
      (some users,⟨some (usersText users),messagesDb⟩) := by
  simp only [loadUsers,steadyLoad,Bool.not_true,Bool.false_eq_true,if_false,Option.getD_some,hstored,
    hadmin,saveUsers,if_true]

theorem Restartable.reload (h : Restartable users) (messagesDb : Option Bytes) :
    loadUsers steadyLoad ⟨some (usersText users),messagesDb⟩ =
      (some users,⟨some (usersText users),messagesDb⟩) := by
  obtain ⟨k,u,hname,hk,hactive,hadmin⟩ := h.admin
  exact loadUsers_steady _ _ (readUsers_usersText h.storable h.count)
    (ensureAdmin_same hname hk hactive hadmin)

theorem findUserIndexByName_map (users : List User) (name : Bytes) :
    findUserIndexByName users name = (users.map User.username).findIdx? (fun x => x = name) := by
  rw [List.findIdx?_map]
  rfl

theorem Restartable.append (h : Restartable users) (hroom : users.length < maxUsers) {u : User}
    (hu : u.Storable) : Restartable (users ++ [u]) := by
  obtain ⟨k,v,hname,hk,hactive,hadmin⟩ := h.admin
  refine ⟨?_,fun w hw => ?_,k,v,?_,?_,hactive,hadmin⟩
  · rw [List.length_append,List.length_singleton]
    omega
  · rcases List.mem_append.mp hw with hw | hw
    · exact h.storable w hw
    · rwa [List.mem_singleton.mp hw]
  · rw [findUserIndexByName] at hname ⊢
    rw [List.findIdx?_append,hname]
    rfl
  · rw [List.getElem?_append_left (List.getElem?_eq_some_iff.mp hk).1,hk]

/-- The flag of an entry that is no admin, or not active, is not that of the first ahmet. -/
theorem Restartable.modify (h : Restartable users) {n : ℕ} {u : User} (hn : users[n]? = some u)
    (hflags : u.isAdmin = 0 ∨ u.active = 0) {active : ℤ} (hactive : -2^31 ≤ active ∧ active < 2^31) :
    Restartable (users.modify n (fun u => { u with active := active })) := by
  obtain ⟨k,v,hname,hk,hvactive,hvadmin⟩ := h.admin
  have hkn : n ≠ k := by
    rintro rfl
    obtain rfl : u = v := Option.some.inj (hn.symm.trans hk)
    omega
  refine ⟨by rw [List.length_modify]; exact h.count,fun w hw => ?_,k,v,?_,?_,hvactive,hvadmin⟩
  · obtain ⟨x,hx,rfl | rfl⟩ := mem_modify hw
    · exact h.storable _ hx
    · exact (h.storable x hx).withActive hactive
  · rw [findUserIndexByName_map,map_modify_active User.username n active (fun _ => rfl),
      ← findUserIndexByName_map,hname]
  · rw [List.getElem?_modify,hk]
    simp [hkn]

theorem newUserId_fits (users : List User) : -2^31 ≤ newUserId users ∧ newUserId users < 2^31 := by
  obtain ⟨hle,hlt⟩ := wrapInt_fits (getMaxUserId (users ++ [User.zero])+1)
  rw [intMin] at hle
  rw [intMax] at hlt
  exact ⟨hle,Int.lt_of_le_sub_one hlt⟩

/-- What a line does to the table leaves the first ahmet alone. -/
theorem LineCall.restartable (c : LineCall) (h : Restartable c.before.users) :
    Restartable c.after.users := by
  rcases c.table_cases with hsame | ⟨⟨-,hempty,hshort,-,hroom⟩,hadd⟩ | ⟨n,u,hremove,hm⟩ |
    ⟨n,u,hrestore,hm⟩
  · rwa [hsame]
  · rw [hadd]
    have hplain := sanitizeMessage_plain (zero_not_mem_cstr c.line)
    exact h.append hroom ⟨newUserId_fits _,by norm_num,by norm_num,hempty,
      Nat.le_of_lt_succ hshort,hplain⟩
  · rw [hm]
    exact h.modify hremove.1.2.2 (Or.inl hremove.2.1) (by norm_num)
  · rw [hm]
    exact h.modify hrestore.1.2.2 (Or.inr hrestore.2) (by norm_num)

/-- Every name that a line adds to the table is one that the file keeps. -/
theorem LineCall.added_name (c : LineCall) :
    ∀ v ∈ c.after.users.drop c.before.users.length, KeptName v.username := by
  intro v hv
  rcases c.table_cases with hsame | ⟨⟨-,hempty,hshort,-,-⟩,hadd⟩ | ⟨k,u,-,hk⟩ | ⟨k,u,-,hk⟩
  · rw [hsame,List.drop_length] at hv
    contradiction
  · rw [hadd,List.drop_left] at hv
    obtain rfl := List.mem_singleton.mp hv
    exact ⟨hempty,Nat.le_of_lt_succ hshort,sanitizeMessage_plain (zero_not_mem_cstr c.line)⟩
  · rw [hk,List.drop_of_length_le (by rw [List.length_modify])] at hv
    contradiction
  · rw [hk,List.drop_of_length_le (by rw [List.length_modify])] at hv
    contradiction

/-- After a save that succeeded `users.db` holds the table. -/
def Server.Saved (s : Server) : Prop :=
  lastSaved s.journal = true → s.disk.usersDb = some (usersText s.users)

theorem lastSaved_save (journal : List Journal) (ok : Bool) :
    lastSaved (journal ++ [.save ok]) = ok := by
  rw [lastSaved,List.foldl_append]
  rfl

variable {s t : Server} {i : Slot}

/-- A step that leaves the table and its file alone, and saves nothing. -/
theorem Server.Saved.of_same (h : s.Saved) (hjournal : lastSaved t.journal = lastSaved s.journal)
    (hdisk : t.disk.usersDb = s.disk.usersDb) (husers : t.users = s.users) : t.Saved := by
  intro hlast
  rw [hdisk,husers]
  exact h (hjournal ▸ hlast)

theorem registered_saved (s : Server) (name : Bytes) (ok : Bool) : (s.registered name ok).Saved := by
  intro hlast
  obtain rfl : ok = true := (lastSaved_save s.journal ok).symm.trans hlast
  rfl

theorem withActive_saved (s : Server) (k : ℕ) (active : ℤ) (ok : Bool) :
    (s.withActive k active ok).Saved := by
  intro hlast
  obtain rfl : ok = true := (lastSaved_save s.journal ok).symm.trans hlast
  rfl

theorem Server.Saved.disconnect (h : s.Saved) (i : Slot) : (s.disconnectClient i).Saved :=
  h.of_same (by rw [disconnectClient_journal]) (by rw [disconnectClient_disk])
    (disconnectClient_users s i)

theorem LineEffect.saved (h : s.Saved) (he : LineEffect s i t) : t.Saved := by
  cases he with
  | leave => exact h.disconnect i
  | register _ name => exact registered_saved s name true
  | unsaved _ name => exact (registered_saved s name false).disconnect i
  | message _ u _ _ _ time text =>
    refine h.of_same (t := s.withMessage time (s.clients i).userId u.id text) ?_ rfl rfl
    rw [Server.withMessage,lastSaved,List.foldl_append]
    rfl
  | remove _ k u _ _ _ ok =>
    exact (withActive_saved s k 0 ok).of_same (by rw [closeSession_journal])
      (by rw [closeSession_disk]) (closeSession_users _ _)
  | restore _ k _ _ _ ok => exact withActive_saved s k 1 ok
  | _ => exact h

theorem Idle.saved (h : Idle s t) (hs : s.Saved) : t.Saved := by
  cases h with
  | close i => exact hs.disconnect i
  | recv fd =>
    refine hs.of_same (t := s.noteRecv fd) ?_ rfl rfl
    rw [Server.noteRecv,lastSaved,List.foldl_append]
    rfl
  | _ => exact hs

theorem LineCall.saved (c : LineCall) (h : c.before.Saved) : c.after.Saved := by
  obtain ⟨t,ht,sent,hafter⟩ := c.effect
  have hsaved : t.Saved := ht.saved h
  rw [hafter]
  exact hsaved

theorem Trace.restartable {calls : List LineCall} (h : Trace s calls t)
    (hs : Restartable s.users ∧ s.Saved) : Restartable t.users ∧ t.Saved := by
  refine h.invariant (P := fun s => Restartable s.users ∧ s.Saved) (Q := fun _ => True) ?_ ?_
    (fun _ _ => trivial) hs
  · rintro s t hidle ⟨husers,hsaved⟩
    rw [hidle.users]
    exact ⟨husers,hidle.saved hsaved⟩
  · rintro c - - ⟨husers,hsaved⟩
    exact ⟨c.restartable husers,c.saved hsaved⟩

/-- A table that the file can hold is loaded from the saved file as it was, every name that a
login adds is one that the file keeps, and every table reached from such a table survives a
restart if the last save has succeeded. -/
theorem users_survive_restart :
    (∀ users, Restartable users → ∀ disk disk', saveUsers ⟨true,true⟩ users disk = (true,disk') →
      loadUsers steadyLoad disk' = (some users,disk')) ∧
    (∀ c : LineCall, ∀ v ∈ c.after.users.drop c.before.users.length, KeptName v.username) ∧
    (∀ users, Restartable users → ∀ messagesDb serverFd as t,
      chat.run as (Server.boot users ⟨some (usersText users),messagesDb⟩ serverFd []) = some t →
      lastSaved t.journal = true → loadUsers steadyLoad t.disk = (some t.users,t.disk)) := by
  refine ⟨?_,LineCall.added_name,?_⟩
  · intro users h disk disk' hsave
    obtain ⟨-,rfl⟩ := Prod.mk.inj hsave
    exact h.reload disk.messagesDb
  · intro users h messagesDb serverFd as t hrun hlast
    have htrace := run_trace (.init (boot_init _ _ _)) hrun
    obtain ⟨husers,hsaved⟩ := htrace.restartable ⟨h,fun _ => rfl⟩
    have hload := husers.reload t.disk.messagesDb
    rw [← hsaved hlast] at hload
    exact hload

theorem firstTable_restartable : Restartable firstTable where
  count := by decide
  storable u hu := by
    obtain rfl := List.mem_singleton.mp hu
    exact ahmet_storable (by norm_num)
  admin := ⟨0,_,by decide,rfl,rfl,rfl⟩

theorem users_survive_restart_bob :
    ∃ t, chat.run (Entry.session 5 "bob\n" steadyEnv) firstServer = some t ∧
      t.users = firstTable ++ [⟨2,ascii "bob",1,0⟩] ∧
      loadUsers steadyLoad t.disk = (some t.users,t.disk) := by
  have hrun : (chat.run (Entry.session 5 "bob\n" steadyEnv) firstServer).map
      (fun t => (t.users,lastSaved t.journal)) =
        some (firstTable ++ [⟨2,ascii "bob",1,0⟩],true) := by decide
  obtain ⟨t,ht,hfacts⟩ := Option.map_eq_some_iff.mp hrun
  obtain ⟨husers,hlast⟩ := Prod.mk.inj hfacts
  exact ⟨t,ht,husers,
    users_survive_restart.2.2 firstTable firstTable_restartable none 3 _ t ht hlast⟩

end RoundTrip

section Migration

/-- The accepted lines of `users.db`, as many as the table has room for. -/
def acceptedLines (text : Bytes) : List Bytes :=
  ((fgetsLines 256 text).filter (fun line => (parseUser line).isSome)).take maxUsers

/-- A line that is read in the older format does not give a name with a separator, or a name of
31 bytes whose line in the current format is not read as one of four fields. -/
def KeepsName (line : Bytes) : Prop :=
  ∀ id name, (scan userFormat (cstr line)).length ≠ 4 →
    scan legacyFormat (cstr line) = [.int id,.text name] →
    bar ∉ name ∨ (name.length = 31 ∧
      (scan userFormat (userLine ⟨id,name,1,0⟩ ++ [newline])).length ≠ 4)

/-- An entry as a line in the older format gives it, with a separator in its name. -/
structure User.Legacy (u : User) : Prop where
  id : -2^31 ≤ u.id ∧ u.id < 2^31
  short : u.username.length ≤ 31
  plain : 0 ∉ u.username ∧ ∀ c ∈ u.username, isSpace c = false
  separator : bar ∈ u.username
  flags : u.active = 1 ∧ u.isAdmin = 0

variable {line : Bytes} {u : User} {users stored : List User}

theorem bmod_fits (n : ℤ) : -2^31 ≤ n.bmod (2^32) ∧ n.bmod (2^32) < 2^31 := by
  obtain ⟨hle,hlt⟩ := wrapInt_fits n
  rw [intMin] at hle
  rw [intMax] at hlt
  exact ⟨hle,Int.lt_of_le_sub_one hlt⟩

/-- What four fields look like. -/
theorem scan_four {s : Bytes} (h : (scan userFormat s).length = 4) :
    ∃ id name active isAdmin pre rest, scan userFormat s =
        [.int id,.text name,.int active,.int isAdmin] ∧ s = pre ++ (name ++ bar::rest) ∧
      (-2^31 ≤ id ∧ id < 2^31) ∧ (-2^31 ≤ active ∧ active < 2^31) ∧
      (-2^31 ≤ isAdmin ∧ isAdmin < 2^31) ∧ name ≠ [] ∧ name.length ≤ 31 ∧ bar ∉ name := by
  obtain ⟨v1,v2,v3,v4,hfour⟩ := List.length_eq_four.mp h
  have hscan := hfour
  rw [userFormat] at hscan
  obtain ⟨n1,r1,hlong,rfl,h1⟩ := scan_int_cons hscan
  obtain ⟨r2,rfl,h2⟩ := scan_literal_cons h1
  obtain ⟨name,r3,rfl,hne,hwidth,hbar,rfl,h3⟩ := scan_upTo_cons h2
  obtain ⟨r4,rfl,h4⟩ := scan_literal_cons h3
  obtain ⟨n3,r5,-,rfl,h5⟩ := scan_int_cons h4
  obtain ⟨r6,rfl,h6⟩ := scan_literal_cons h5
  obtain ⟨n4,r7,-,rfl,-⟩ := scan_int_cons h6
  obtain ⟨pre,hpre⟩ := readLong_suffix hlong
  refine ⟨_,name,_,_,pre ++ [bar],r4,hfour,?_,bmod_fits n1,bmod_fits n3,bmod_fits n4,hne,hwidth,hbar⟩
  rw [← hpre]
  simp

/-- What a line in the older format looks like. -/
theorem scan_legacy {s : Bytes} {id : ℤ} {name : Bytes}
    (h : scan legacyFormat s = [.int id,.text name]) :
    (∃ pre rest, s = pre ++ (name ++ rest)) ∧ (-2^31 ≤ id ∧ id < 2^31) ∧ name ≠ [] ∧
      name.length ≤ 31 ∧ ∀ c ∈ name, isSpace c = false := by
  rw [legacyFormat] at h
  obtain ⟨n1,r1,hlong,hid,h1⟩ := scan_int_cons h
  obtain ⟨r2,rfl,h2⟩ := scan_literal_cons h1
  obtain ⟨t,r3,hskip,hne,hwidth,hplain,ht,-⟩ := scan_word_cons h2
  obtain rfl := Value.text.inj ht
  obtain rfl := Value.int.inj hid
  obtain ⟨pre,hpre⟩ := readLong_suffix hlong
  obtain ⟨space,hspace⟩ : skipSpace r2 <:+ r2 := List.dropWhile_suffix _
  refine ⟨⟨pre ++ bar::space,r3,?_⟩,bmod_fits n1,hne,hwidth,hplain⟩
  rw [← hpre,← hspace,hskip]
  simp

/-- An accepted line has four fields, or is one in the older format. -/
theorem parseUser_cases (hline : newline ∉ line.dropLast) (h : parseUser line = some u) :
    u.Storable ∨ ∃ name, (scan userFormat (cstr line)).length ≠ 4 ∧
      scan legacyFormat (cstr line) = [.int u.id,.text name] ∧
      u = ⟨u.id,name,1,if name = ahmet then 1 else 0⟩ := by
  by_cases hfour : (scan userFormat (cstr line)).length = 4
  · left
    obtain ⟨id,name,active,isAdmin,pre,rest,hscan,hcstr,hid,hactive,hadmin,hne,hshort,hbar⟩ :=
      scan_four hfour
    simp only [parseUser,hscan] at h
    obtain rfl := Option.some.inj h
    refine ⟨hid,hactive,hadmin,hne,hshort,fun hzero => ?_,hbar,fun hnewline => hline ?_⟩
    · exact zero_not_mem_cstr line (by rw [hcstr]; simp [hzero])
    · obtain ⟨tail,htail⟩ : cstr line <+: line := List.takeWhile_prefix _
      have hne : bar::rest ++ tail ≠ [] := List.cons_ne_nil _ _
      have hsplit : line = (pre ++ name) ++ (bar::rest ++ tail) := by
        rw [← htail,hcstr]
        simp
      rw [hsplit,List.dropLast_append_of_ne_nil hne]
      exact List.mem_append_left _ (List.mem_append_right _ hnewline)
  · right
    unfold parseUser at h
    split at h
    · next hscan => exact absurd (by rw [hscan]; rfl) hfour
    · split at h
      · next id name hscan =>
        obtain rfl := Option.some.inj h
        exact ⟨name,hfour,hscan,rfl⟩
      · contradiction

theorem newline_not_mem_name {name : Bytes} (h : ∀ c ∈ name, isSpace c = false) : newline ∉ name :=
  fun hmem => Bool.noConfusion ((h newline hmem).symm.trans (by decide : isSpace newline = true))

/-- An entry that a line in the older format gives. -/
theorem legacy_entry {id : ℤ} {name : Bytes} (h : scan legacyFormat (cstr line) = [.int id,.text name]) :
    (bar ∉ name → User.Storable ⟨id,name,1,if name = ahmet then 1 else 0⟩) ∧
      (bar ∈ name → User.Legacy ⟨id,name,1,if name = ahmet then 1 else 0⟩) := by
  obtain ⟨⟨pre,rest,hcstr⟩,hid,hne,hshort,hspace⟩ := scan_legacy h
  have hzero : 0 ∉ name := fun hmem => zero_not_mem_cstr line (by rw [hcstr]; simp [hmem])
  refine ⟨fun hbar => ?_,fun hbar => ?_⟩
  · refine ⟨hid,by norm_num,?_,hne,hshort,hzero,hbar,newline_not_mem_name hspace⟩
    dsimp only
    split_ifs <;> norm_num
  · have hahmet : name ≠ ahmet := by
      rintro rfl
      exact absurd hbar (by decide)
    exact ⟨hid,hshort,⟨hzero,hspace⟩,hbar,rfl,if_neg hahmet⟩

namespace User.Legacy

theorem line_plain (h : u.Legacy) : newline ∉ userLine u :=
  not_mem_userLine (by decide) (by decide) (newline_not_mem_name h.plain.2)

theorem line_length (h : u.Legacy) : (userLine u).length+1 < 256 := by
  obtain ⟨hactive,hadmin⟩ := h.flags
  exact userLine_length h.id (by rw [hactive]; norm_num) (by rw [hadmin]; norm_num) h.short

theorem name_ne_ahmet (h : u.Legacy) : u.username ≠ ahmet := by
  intro heq
  have hbar := h.separator
  rw [heq] at hbar
  exact absurd hbar (by decide)

/-- Read in the older format, the rewritten line gives the name with what follows it, as far as
31 bytes go. -/
theorem scan_rewritten (h : u.Legacy) : ∃ more,
    scan legacyFormat (userLine u ++ [newline]) = [.int u.id,.text (u.username ++ more)] ∧
      (more = [] ↔ u.username.length = 31) := by
  have hne : u.username ≠ [] := List.ne_nil_of_mem h.separator
  have hall : ∀ c ∈ u.username, (!isSpace c) = true := fun c hc => by rw [h.plain.2 c hc]; rfl
  let rest := decimal u.active ++ bar::decimal u.isAdmin ++ [newline]
  have hskip : skipSpace (u.username ++ bar::rest) = u.username ++ bar::rest := by
    obtain ⟨c,name,hname⟩ := List.exists_cons_of_ne_nil hne
    rw [hname,List.cons_append]
    exact skipSpace_cons (h.plain.2 c (by rw [hname]; exact List.mem_cons_self))
  let more := ((bar::rest).take (31-u.username.length)).takeWhile (fun c => !isSpace c)
  have hword : ((u.username ++ bar::rest).take 31).takeWhile (fun c => !isSpace c) =
      u.username ++ more := by
    rw [List.take_append,List.take_of_length_le h.short,List.takeWhile_append_of_pos hall]
  refine ⟨more,?_,?_⟩
  · have hline : userLine u ++ [newline] = decimal u.id ++ bar::(u.username ++ bar::rest) := by
      simp [userLine,rest]
    rw [hline,legacyFormat,scan_decimal (Or.inl rfl) h.id (endsNumber_cons (by decide)),scan_literal]
    simp only [scan,hskip,hword]
    rw [if_neg (by simp [hne])]
  · have hshort := h.short
    constructor
    · intro hnil
      by_contra hlen
      obtain ⟨k,hk⟩ : ∃ k, 31-u.username.length = k+1 := ⟨30-u.username.length,by omega⟩
      have hbar : (!isSpace bar) = true := by decide
      simp [more,hk,hbar] at hnil
    · intro hlen
      simp [more,hlen]

/-- The rewritten line is accepted. It gives the same entry if the name has 31 bytes and the line
is not read as one of four fields, and else an entry with another name. -/
theorem reparse (h : u.Legacy) : ∃ v, parseUser (userLine u ++ [newline]) = some v ∧
    (if u.username.length = 31 ∧ (scan userFormat (userLine u ++ [newline])).length ≠ 4 then v = u
      else v.username ≠ u.username) := by
  have hcstr : cstr (userLine u ++ [newline]) = userLine u ++ [newline] := by
    apply cstr_of_not_mem
    have hzero : 0 ∉ userLine u := not_mem_userLine (by decide) (by decide) h.plain.1
    simp [hzero,newline]
  by_cases hfour : (scan userFormat (userLine u ++ [newline])).length = 4
  · obtain ⟨id,name,active,isAdmin,pre,rest,hscan,-,-,-,-,-,-,hbar⟩ := scan_four hfour
    refine ⟨⟨id,name,active,isAdmin⟩,by simp only [parseUser,hcstr,hscan],?_⟩
    rw [if_neg (fun hcond => hcond.2 hfour)]
    intro heq
    have hseparator := h.separator
    rw [← heq] at hseparator
    exact hbar hseparator
  · obtain ⟨more,hscan,hmore⟩ := h.scan_rewritten
    refine ⟨⟨u.id,u.username ++ more,1,if u.username ++ more = ahmet then 1 else 0⟩,?_,?_⟩
    · unfold parseUser
      rw [hcstr,hscan]
      split
      · next heq => exact absurd (by rw [heq]; rfl) hfour
      · rfl
    · by_cases hlen : u.username.length = 31
      · rw [if_pos ⟨hlen,hfour⟩]
        obtain rfl := hmore.mpr hlen
        rw [List.append_nil,if_neg h.name_ne_ahmet]
        obtain ⟨hactive,hadmin⟩ := h.flags
        cases u
        simp only at hactive hadmin
        rw [hactive,hadmin]
      · rw [if_neg (fun hcond => hlen hcond.1)]
        intro heq
        exact hlen (hmore.mp (List.append_right_eq_self.mp heq))

end User.Legacy

/-- The line that `save_users` writes for an entry is read as that entry. -/
def User.Rereads (u : User) : Prop := parseUser (userLine u ++ [newline]) = some u

theorem User.Storable.rereads (h : u.Storable) : u.Rereads := parseUser_userLine h

/-- What `load_users` stores for an accepted line, and that the entry is read again exactly where
the line keeps its name. -/
theorem accepted_entry (hline : newline ∉ line.dropLast) (h : parseUser line = some u) :
    (u.Storable ∨ u.Legacy) ∧ (KeepsName line ↔ u.Rereads) := by
  rcases parseUser_cases hline h with hstorable | ⟨name,hfour,hscan,hu⟩
  · refine ⟨Or.inl hstorable,fun _ => hstorable.rereads,fun _ => ?_⟩
    intro id name hfour hscan
    have hu : parseUser line = some ⟨id,name,1,if name = ahmet then 1 else 0⟩ := by
      unfold parseUser
      split
      · next heq => exact absurd (by rw [heq]; rfl) hfour
      · rw [hscan]
    obtain rfl := Option.some.inj (h.symm.trans hu)
    exact Or.inl hstorable.plain.2.1
  · obtain ⟨hplain,hseparator⟩ := legacy_entry hscan
    by_cases hbar : bar ∈ name
    · have hlegacy : u.Legacy := by
        rw [hu]
        exact hseparator hbar
      obtain ⟨hactive,hadmin⟩ := hlegacy.flags
      have hname : u.username = name := by rw [hu]
      have hsame : (⟨u.id,name,1,0⟩ : User) = u := by
        cases u
        simp only at hactive hadmin hname
        rw [hactive,hadmin,hname]
      refine ⟨Or.inr hlegacy,?_⟩
      obtain ⟨v,hv,hcases⟩ := hlegacy.reparse
      constructor
      · intro hkeeps
        rcases hkeeps _ _ hfour hscan with hno | hkept
        · exact absurd hbar hno
        · rw [hsame,← hname] at hkept
          rw [if_pos hkept] at hcases
          rw [User.Rereads,hv,hcases]
      · intro hrereads id' name' _ hscan'
        obtain ⟨rfl,rfl⟩ : u.id = id' ∧ name = name' := by
          simpa using hscan.symm.trans hscan'
        right
        rw [hsame,← hname]
        by_contra hlost
        rw [if_neg hlost] at hcases
        rw [User.Rereads,hv] at hrereads
        exact hcases (congrArg User.username (Option.some.inj hrereads))
    · have hstorable : u.Storable := by
        rw [hu]
        exact hplain hbar
      refine ⟨Or.inl hstorable,fun _ => hstorable.rereads,fun _ id' name' _ hscan' => Or.inl ?_⟩
      obtain ⟨-,rfl⟩ : u.id = id' ∧ name = name' := by
        simpa using hscan.symm.trans hscan'
      exact hbar

/-- `load_users` adds its admin, or makes the first ahmet of the file an active admin. -/
theorem ensureAdmin_cases (h : ensureAdmin stored = some users) :
    ((∀ v ∈ stored, v.username ≠ ahmet) ∧ stored.length < maxUsers ∧
        users = stored ++ [⟨newUserId stored,ahmet,1,1⟩]) ∨
      ∃ before u after, (∀ v ∈ before, v.username ≠ ahmet) ∧ u.username = ahmet ∧
        stored = before ++ u::after ∧
        users = before ++ { u with active := 1, isAdmin := 1 }::after := by
  unfold ensureAdmin at h
  cases hk : findUserIndexByName stored ahmet with
  | none =>
    simp only [hk] at h
    split_ifs at h with hfull
    refine Or.inl ⟨fun v hv => ?_,not_le.mp hfull,(Option.some.inj h).symm⟩
    simpa using List.findIdx?_eq_none_iff.mp hk v hv
  | some k =>
    simp only [hk] at h
    obtain ⟨hlt,hname,hfirst⟩ := List.findIdx?_eq_some_iff_getElem.mp hk
    refine Or.inr ⟨stored.take k,stored[k],stored.drop (k+1),?_,by simpa using hname,?_,?_⟩
    · intro v hv
      obtain ⟨n,hn,rfl⟩ := List.mem_take_iff_getElem.mp hv
      simpa using hfirst n (by omega)
    · rw [List.getElem_cons_drop,List.take_append_drop]
    · rw [← Option.some.inj h,List.modify_eq_take_cons_drop hlt]

theorem findUserIndexByName_append {before after : List User}
    (hbefore : ∀ v ∈ before, v.username ≠ ahmet) (hu : u.username = ahmet) :
    findUserIndexByName (before ++ u::after) ahmet = some before.length := by
  have hnone : before.findIdx? (fun v => decide (v.username = ahmet)) = none := by
    rw [List.findIdx?_eq_none_iff]
    simpa using hbefore
  rw [findUserIndexByName,List.findIdx?_append,hnone,List.findIdx?_cons,decide_eq_true hu]
  simp

/-- The admin's entry is one that the file can hold, so the default admin neither spoils nor saves
the reading of the rewritten file. -/
theorem ensureAdmin_rereads (h : ensureAdmin stored = some users)
    (hkind : ∀ u ∈ stored, u.Storable ∨ u.Legacy) :
    (∀ u ∈ users, u.Storable ∨ u.Legacy) ∧
      ((∀ u ∈ users, u.Rereads) ↔ ∀ u ∈ stored, u.Rereads) ∧
      ∃ k u, findUserIndexByName users ahmet = some k ∧ users[k]? = some u ∧ u.active = 1 ∧
        u.isAdmin = 1 := by
  rcases ensureAdmin_cases h with ⟨hnone,-,rfl⟩ | ⟨before,a,after,hfirst,hname,rfl,rfl⟩
  · have hadmin : User.Storable ⟨newUserId stored,ahmet,1,1⟩ := ahmet_storable (newUserId_fits _)
    refine ⟨?_,?_,stored.length,_,findUserIndexByName_append hnone rfl,
      List.getElem?_concat_length,rfl,rfl⟩
    · rw [List.forall_mem_append,List.forall_mem_singleton]
      exact ⟨hkind,Or.inl hadmin⟩
    · rw [List.forall_mem_append,List.forall_mem_singleton]
      exact ⟨And.left,fun hstored => ⟨hstored,hadmin.rereads⟩⟩
  · obtain ⟨hbefore,ha,hafter⟩ : (∀ u ∈ before, u.Storable ∨ u.Legacy) ∧
        (a.Storable ∨ a.Legacy) ∧ ∀ u ∈ after, u.Storable ∨ u.Legacy := by
      rwa [List.forall_mem_append,List.forall_mem_cons] at hkind
    have hold : a.Storable := ha.resolve_right (fun hlegacy => hlegacy.name_ne_ahmet hname)
    have hadmin : User.Storable { a with active := 1, isAdmin := 1 } :=
      ⟨hold.id,by norm_num,by norm_num,hold.nonempty,hold.short,hold.plain⟩
    refine ⟨?_,?_,before.length,{ a with active := 1, isAdmin := 1 },
      findUserIndexByName_append hfirst hname,by simp,rfl,rfl⟩
    · rw [List.forall_mem_append,List.forall_mem_cons]
      exact ⟨hbefore,Or.inl hadmin,hafter⟩
    · simp only [List.forall_mem_append,List.forall_mem_cons,hadmin.rereads,hold.rereads,true_and]

/-- `load_users` keeps the names that it has read. -/
theorem ensureAdmin_names (h : ensureAdmin stored = some users) :
    stored.map User.username <+: users.map User.username := by
  rcases ensureAdmin_cases h with ⟨-,-,rfl⟩ | ⟨before,a,after,-,-,rfl,rfl⟩
  · rw [List.map_append]
    exact List.prefix_append _ _
  · simp

theorem ensureAdmin_length (h : ensureAdmin stored = some users)
    (hcount : stored.length ≤ maxUsers) : users.length ≤ maxUsers := by
  rcases ensureAdmin_cases h with ⟨-,hroom,rfl⟩ | ⟨before,a,after,-,-,rfl,rfl⟩
  · rw [List.length_append,List.length_singleton]
    omega
  · rwa [List.length_append,List.length_cons] at hcount ⊢

theorem take_filterMap {α β : Type*} (f : α → Option β) (l : List α) (n : ℕ) :
    (l.filterMap f).take n = ((l.filter (fun a => (f a).isSome)).take n).filterMap f := by
  induction l generalizing n with
  | nil => simp
  | cons a l ih =>
    cases hfa : f a with
    | none => rw [List.filterMap_cons_none hfa,List.filter_cons_of_neg (by simp [hfa]),ih]
    | some b =>
      rw [List.filterMap_cons_some hfa,List.filter_cons_of_pos (by simp [hfa])]
      cases n with
      | zero => rfl
      | succ n => rw [List.take_succ_cons,List.take_succ_cons,List.filterMap_cons_some hfa,ih]

theorem readUsers_accepted (text : Bytes) :
    readUsers (fgetsLines 256 text) [] = (acceptedLines text).filterMap parseUser := by
  rw [readUsers_eq _ _ (Nat.zero_le _),List.nil_append,acceptedLines,take_filterMap]
  rfl

/-- What a load that succeeds leaves. -/
theorem loadUsers_some {ans : LoadAnswers} {disk disk' : Disk}
    (h : loadUsers ans disk = (some users,disk')) :
    ensureAdmin (readUsers (fgetsLines 256 (disk.usersDb.getD [])) []) = some users ∧
      disk' = ⟨some (usersText users),disk.messagesDb⟩ := by
  unfold loadUsers at h
  cases hopens : ans.opens with
  | false => simp [hopens] at h
  | true =>
    cases hu : ensureAdmin (readUsers (fgetsLines 256 (disk.usersDb.getD [])) []) with
    | none => simp [hopens,hu] at h
    | some table =>
      simp only [hopens,hu,Bool.not_true,Bool.false_eq_true,if_false] at h
      rcases saveUsers_cases ans.save table ⟨some (disk.usersDb.getD []),disk.messagesDb⟩ with
        hsave | hsave
      · simp [hsave] at h
      · rw [hsave] at h
        obtain ⟨hsome,rfl⟩ := Prod.mk.inj h
        obtain rfl := Option.some.inj hsome
        exact ⟨rfl,rfl⟩

/-- The disk after starts of the server that no client has connected to. -/
def restarted (answers : List LoadAnswers) (disk : Disk) : Disk :=
  answers.foldl (fun disk ans => (loadUsers ans disk).2) disk

/-- A rewritten file that is read as its table is not changed by any further start. -/
theorem restarted_same {messagesDb : Option Bytes}
    (hstored : ensureAdmin (readUsers (fgetsLines 256 (usersText users)) []) = some users)
    (answers : List LoadAnswers) :
    restarted answers ⟨some (usersText users),messagesDb⟩ = ⟨some (usersText users),messagesDb⟩ := by
  induction answers with
  | nil => rfl
  | cons ans answers ih =>
    have hload : (loadUsers ans ⟨some (usersText users),messagesDb⟩).2 =
        ⟨some (usersText users),messagesDb⟩ := by
      unfold loadUsers
      split_ifs
      · rfl
      · simp only [Option.getD_some,hstored]
        rcases saveUsers_cases ans.save users ⟨some (usersText users),messagesDb⟩ with h | h
        · rw [h]
        · rw [h]
    rw [restarted,List.foldl_cons,hload]
    exact ih

/-- What a reload makes of an entry that `load_users` has stored. -/
def User.reread (u : User) : User := (parseUser (userLine u ++ [newline])).getD User.zero

theorem reread_spec (h : u.Storable ∨ u.Legacy) :
    parseUser (userLine u ++ [newline]) = some u.reread ∧
      (u.reread.username = u.username → u.Rereads) := by
  obtain ⟨v,hv,hsame⟩ : ∃ v, parseUser (userLine u ++ [newline]) = some v ∧
      (v.username = u.username → v = u) := by
    rcases h with hstorable | hlegacy
    · exact ⟨u,hstorable.rereads,fun _ => rfl⟩
    · obtain ⟨v,hv,hcases⟩ := hlegacy.reparse
      refine ⟨v,hv,fun hname => ?_⟩
      split_ifs at hcases
      · exact hcases
      · exact absurd hname hcases
  have hreread : u.reread = v := by rw [User.reread,hv]; rfl
  rw [hreread]
  exact ⟨hv,fun hname => by rw [User.Rereads,hv,hsame hname]⟩

/-- The table read from the rewritten file. -/
theorem readUsers_rewritten (hkind : ∀ u ∈ users, u.Storable ∨ u.Legacy)
    (hcount : users.length ≤ maxUsers) :
    readUsers (fgetsLines 256 (usersText users)) [] = users.map User.reread := by
  have hlines : fgetsLines 256 (usersText users) = users.map (fun u => userLine u ++ [newline]) := by
    apply fgetsLines_usersText
    · intro u hu
      rcases hkind u hu with h | h
      · exact not_mem_userLine (by decide) (by decide) h.plain.2.2
      · exact h.line_plain
    · intro u hu
      rcases hkind u hu with h | h
      · exact h.line_length
      · exact h.line_length
  have hparse : (users.map (fun u => userLine u ++ [newline])).filterMap parseUser =
      users.map User.reread := by
    rw [List.filterMap_map,← List.filterMap_eq_map]
    exact List.filterMap_congr (fun u hu => (reread_spec (hkind u hu)).1)
  rw [hlines,readUsers_eq _ _ (Nat.zero_le _),hparse]
  exact List.take_of_length_le (by rwa [List.length_map])

/-- The table read from the rewritten file is the table exactly where every entry is read again
as it was. -/
theorem reload_iff (hkind : ∀ u ∈ users, u.Storable ∨ u.Legacy) (hcount : users.length ≤ maxUsers)
    (hadmin : ∃ k u, findUserIndexByName users ahmet = some k ∧ users[k]? = some u ∧
      u.active = 1 ∧ u.isAdmin = 1) :
    ensureAdmin (readUsers (fgetsLines 256 (usersText users)) []) = some users ↔
      ∀ u ∈ users, u.Rereads := by
  rw [readUsers_rewritten hkind hcount]
  constructor
  · intro h u hu
    have hnames : (users.map User.reread).map User.username = users.map User.username :=
      (ensureAdmin_names h).eq_of_length (by simp)
    rw [List.map_map] at hnames
    exact (reread_spec (hkind u hu)).2 (List.map_inj_left.mp hnames u hu)
  · intro h
    have hsame : users.map User.reread = users := by
      rw [List.map_congr_left (g := id) (fun u hu => ?_),List.map_id]
      exact Option.some.inj ((reread_spec (hkind u hu)).1.symm.trans (h u hu))
    obtain ⟨k,u,hname,hk,hactive,hisAdmin⟩ := hadmin
    rw [hsame]
    exact ensureAdmin_same hname hk hactive hisAdmin

/-- After a start of the server that succeeded, every further start without clients finds the same
table exactly where every accepted line of the file keeps its name. -/
theorem restarts_keep_iff {ans : LoadAnswers} {disk disk' : Disk}
    (h : loadUsers ans disk = (some users,disk')) :
    (∀ answers, (loadUsers steadyLoad (restarted answers disk')).1 = some users) ↔
      ∀ line ∈ acceptedLines (disk.usersDb.getD []), KeepsName line := by
  obtain ⟨hensure,rfl⟩ := loadUsers_some h
  rw [readUsers_accepted] at hensure
  have hentry : ∀ line ∈ acceptedLines (disk.usersDb.getD []), ∀ u, parseUser line = some u →
      (u.Storable ∨ u.Legacy) ∧ (KeepsName line ↔ u.Rereads) := by
    intro line hline u hu
    exact accepted_entry (fgetsLines_newline (List.mem_filter.mp (List.mem_of_mem_take hline)).1) hu
  have hkind : ∀ u ∈ (acceptedLines (disk.usersDb.getD [])).filterMap parseUser,
      u.Storable ∨ u.Legacy := by
    intro u hu
    obtain ⟨line,hline,hparse⟩ := List.mem_filterMap.mp hu
    exact (hentry line hline u hparse).1
  have hcount : ((acceptedLines (disk.usersDb.getD [])).filterMap parseUser).length ≤ maxUsers :=
    (List.length_filterMap_le _ _).trans (List.length_take_le _ _)
  have hlines : (∀ line ∈ acceptedLines (disk.usersDb.getD []), KeepsName line) ↔
      ∀ u ∈ (acceptedLines (disk.usersDb.getD [])).filterMap parseUser, u.Rereads := by
    constructor
    · intro hkeeps u hu
      obtain ⟨line,hline,hparse⟩ := List.mem_filterMap.mp hu
      exact (hentry line hline u hparse).2.mp (hkeeps line hline)
    · intro hrereads line hline
      obtain ⟨u,hu⟩ := Option.isSome_iff_exists.mp
        (List.mem_filter.mp (List.mem_of_mem_take hline)).2
      exact (hentry line hline u hu).2.mpr
        (hrereads u (List.mem_filterMap.mpr ⟨line,hline,hu⟩))
  obtain ⟨hkind',hrereads,hadmin⟩ := ensureAdmin_rereads hensure hkind
  have hreload := reload_iff hkind' (ensureAdmin_length hensure hcount) hadmin
  rw [hlines,← hrereads,← hreload]
  constructor
  · intro hall
    have hfirst := hall []
    cases hstored : ensureAdmin (readUsers (fgetsLines 256 (usersText users)) []) with
    | none => simp [restarted,loadUsers,steadyLoad,hstored] at hfirst
    | some table =>
      rw [restarted,List.foldl_nil,loadUsers_steady _ _ rfl hstored] at hfirst
      exact hfirst
  · intro hstored answers
    rw [restarted_same hstored,loadUsers_steady _ _ rfl hstored]

theorem restarts_keep_bob :
    loadUsers steadyLoad ⟨some (ascii "3|bob\n"),none⟩ =
        (some [⟨3,ascii "bob",1,0⟩,⟨4,ahmet,1,1⟩],⟨some (ascii "3|bob|1|0\n4|ahmet|1|1\n"),none⟩) ∧
      ∀ answers, (loadUsers steadyLoad (restarted answers
        ⟨some (ascii "3|bob|1|0\n4|ahmet|1|1\n"),none⟩)).1 =
          some [⟨3,ascii "bob",1,0⟩,⟨4,ahmet,1,1⟩] := by
  have hload : loadUsers steadyLoad ⟨some (ascii "3|bob\n"),none⟩ =
      (some [⟨3,ascii "bob",1,0⟩,⟨4,ahmet,1,1⟩],
        ⟨some (ascii "3|bob|1|0\n4|ahmet|1|1\n"),none⟩) := by decide
  refine ⟨hload,(restarts_keep_iff hload).mpr fun line hline id name _ hscan => Or.inl ?_⟩
  have hlines : acceptedLines (ascii "3|bob\n") = [ascii "3|bob\n"] := by decide
  obtain rfl : line = ascii "3|bob\n" := by simpa [hlines] using hline
  have hbob : scan legacyFormat (cstr (ascii "3|bob\n")) = [.int 3,.text (ascii "bob")] := by decide
  obtain ⟨-,rfl⟩ : 3 = id ∧ ascii "bob" = name := by simpa using hbob.symm.trans hscan
  decide

/-- A line that lacks one field of the current format gives the account a name with a separator,
and the next start makes of it an admin called bob. -/
theorem missing_field_promotes :
    ∃ users disk, loadUsers steadyLoad ⟨some (ascii "1|ahmet|1|1\n3|bob|1\n"),none⟩ =
        (some users,disk) ∧ users[1]? = some ⟨3,ascii "bob|1",1,0⟩ ∧
      ∃ table, (loadUsers steadyLoad disk).1 = some table ∧
        table[1]? = some ⟨3,ascii "bob",1,1⟩ := by
  refine ⟨_,_,(by decide : loadUsers steadyLoad ⟨some (ascii "1|ahmet|1|1\n3|bob|1\n"),none⟩ =
    (some [⟨1,ahmet,1,1⟩,⟨3,ascii "bob|1",1,0⟩],⟨some (ascii "1|ahmet|1|1\n3|bob|1|1|0\n"),none⟩)),
    rfl,[⟨1,ahmet,1,1⟩,⟨3,ascii "bob",1,1⟩],by decide,rfl⟩

end Migration

end NetLab.Chat
