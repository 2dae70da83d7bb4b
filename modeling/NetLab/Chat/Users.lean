import NetLab.Foundation.Scanf

/-! The user table of the chat server and the file it is kept in: `save_users`, `load_users`, and
that a saved table is read back as it was. -/
namespace NetLab.Chat

def maxUsers : ℕ := 1000
def usernameSize : ℕ := 32

/-- `struct User`, with the C string in its `username` array. -/
structure User where
  id : ℤ
  username : Bytes
  active : ℤ
  isAdmin : ℤ
  deriving DecidableEq

/-- An entry of the static array that has not been used yet. -/
def User.zero : User := ⟨0,[],0,0⟩

def findUserIndexById (users : List User) (id : ℤ) : Option ℕ :=
  users.findIdx? (fun u => u.id = id)

def findUserIndexByName (users : List User) (username : Bytes) : Option ℕ :=
  users.findIdx? (fun u => u.username = username)

def getMaxUserId (users : List User) : ℤ :=
  users.foldl (fun maxId u => if u.id > maxId then u.id else maxId) 0

/-- An `int` after an addition that may overflow. -/
def wrapInt (n : ℤ) : ℤ := n.bmod (2^32)

/-- The id of a new entry; `user_count` already counts the entry, which still holds zeros. -/
def newUserId (users : List User) : ℤ := wrapInt (getMaxUserId (users ++ [User.zero])+1)

/-- The two files of the server; `none` is a file that does not exist. -/
structure Disk where
  usersDb : Option Bytes
  messagesDb : Option Bytes
  deriving DecidableEq

/-- `"%d|%s|%d|%d"` of one entry. -/
def userLine (u : User) : Bytes :=
  decimal u.id ++ bar::(u.username ++ bar::(decimal u.active ++ bar::decimal u.isAdmin))

def usersText (users : List User) : Bytes := users.flatMap (fun u => userLine u ++ [newline])

/-- Whether `users.db.tmp` opens and whether it can be renamed; what is written to an opened file
arrives there. -/
structure SaveAnswers where
  tmpOpens : Bool
  renames : Bool

/-- `save_users`; `false` stands for -1. -/
def saveUsers (ans : SaveAnswers) (users : List User) (disk : Disk) : Bool × Disk :=
  if !ans.tmpOpens then (false,disk)
  else if !ans.renames then (false,disk)
  else (true,{ disk with usersDb := some (usersText users) })

/-- A save either leaves the disk as it is and fails, or replaces `users.db`. -/
theorem saveUsers_cases (ans : SaveAnswers) (users : List User) (disk : Disk) :
    saveUsers ans users disk = (false,disk) ∨
      saveUsers ans users disk = (true,{ disk with usersDb := some (usersText users) }) := by
  unfold saveUsers
  split_ifs
  · exact Or.inl rfl
  · exact Or.inl rfl
  · exact Or.inr rfl

def ahmet : Bytes := ascii "ahmet"

/-- `"%d|%31[^|]|%d|%d"` -/
def userFormat : List Directive :=
  [.int 32,.literal bar,.upTo 31 bar,.literal bar,.int 32,.literal bar,.int 32]

/-- `"%d|%31s"` -/
def legacyFormat : List Directive := [.int 32,.literal bar,.word 31]

/-- One line of `users.db`, in the current format or in the one without flags. -/
def parseUser (line : Bytes) : Option User :=
  match scan userFormat (cstr line) with
  | [.int id,.text username,.int active,.int isAdmin] => some ⟨id,username,active,isAdmin⟩
  | _ =>
    match scan legacyFormat (cstr line) with
    | [.int id,.text username] => some ⟨id,username,1,if username = ahmet then 1 else 0⟩
    | _ => none

/-- The reading loop of `load_users`. -/
def readUsers : List Bytes → List User → List User
  | [],users => users
  | line::lines,users =>
    if maxUsers ≤ users.length then users
    else
      match parseUser line with
      | some user => readUsers lines (users ++ [user])
      | none => readUsers lines users

/-- The default admin: added to the table, or made an active admin where the table has it. -/
def ensureAdmin (users : List User) : Option (List User) :=
  match findUserIndexByName users ahmet with
  | none =>
    if maxUsers ≤ users.length then none else some (users ++ [⟨newUserId users,ahmet,1,1⟩])
  | some i => some (users.modify i (fun u => { u with active := 1, isAdmin := 1 }))

structure LoadAnswers where
  opens : Bool
  save : SaveAnswers

/-- `load_users`; `none` stands for -1. Opening with `"a+"` creates the file. -/
def loadUsers (ans : LoadAnswers) (disk : Disk) : Option (List User) × Disk :=
  if !ans.opens then (none,disk)
  else
    let text := disk.usersDb.getD []
    let disk := { disk with usersDb := some text }
    match ensureAdmin (readUsers (fgetsLines 256 text) []) with
    | none => (none,disk)
    | some users =>
      let r := saveUsers ans.save users disk
      (if r.1 then some users else none,r.2)

theorem readUsers_eq (lines : List Bytes) (users : List User) (h : users.length ≤ maxUsers) :
    readUsers lines users =
      users ++ (lines.filterMap parseUser).take (maxUsers-users.length) := by
  induction lines generalizing users with
  | nil => simp [readUsers]
  | cons line lines ih =>
    rw [readUsers]
    split_ifs with hfull
    · rw [show maxUsers-users.length = 0 by omega,List.take_zero,List.append_nil]
    · cases hp : parseUser line with
      | none =>
        rw [List.filterMap_cons_none hp]
        exact ih users h
      | some user =>
        rw [List.filterMap_cons_some hp]
        have hlen : (users ++ [user]).length ≤ maxUsers := by
          rw [List.length_append,List.length_singleton]
          omega
        have hroom : maxUsers-users.length = maxUsers-(users ++ [user]).length+1 := by
          rw [List.length_append,List.length_singleton]
          omega
        change readUsers lines (users ++ [user]) = _
        rw [ih _ hlen,hroom,List.take_succ_cons,List.append_assoc,List.singleton_append]

section RoundTrip

/-- What the file format can hold: `int` fields and a name that one `%31[^|]` reads. -/
structure User.Storable (u : User) : Prop where
  id : -2^31 ≤ u.id ∧ u.id < 2^31
  active : -2^31 ≤ u.active ∧ u.active < 2^31
  isAdmin : -2^31 ≤ u.isAdmin ∧ u.isAdmin < 2^31
  nonempty : u.username ≠ []
  short : u.username.length ≤ 31
  plain : 0 ∉ u.username ∧ bar ∉ u.username ∧ newline ∉ u.username

theorem mem_decimal {n : ℤ} {c : UInt8} (h : c ∈ decimal n) : c = 45 ∨ isDigit c = true := by
  unfold decimal at h
  split_ifs at h
  · rcases List.mem_cons.mp h with rfl | h
    · exact Or.inl rfl
    · exact Or.inr (isDigit_of_mem_natDecimal h)
  · exact Or.inr (isDigit_of_mem_natDecimal h)

theorem not_mem_decimal {n : ℤ} {c : UInt8} (hsign : c ≠ 45) (hdigit : isDigit c = false) :
    c ∉ decimal n := by
  intro h
  rcases mem_decimal h with rfl | hd
  · exact hsign rfl
  · rw [hdigit] at hd
    contradiction

theorem decimal_length {n : ℤ} (h : -2^31 ≤ n ∧ n < 2^31) : (decimal n).length ≤ 11 := by
  have hlen : (natDecimal n.natAbs).length ≤ 10 := natDecimal_length (by norm_num) (by omega)
  unfold decimal
  split_ifs
  · rw [List.length_cons]
    omega
  · omega

theorem endsNumber_cons {c : UInt8} {s : Bytes} (h : isDigit c = false) : EndsNumber (c::s) := by
  intro d hd
  obtain rfl : c = d := by simpa using hd
  exact h

theorem not_mem_userLine {u : User} {c : UInt8} (hc : c ≠ 45 ∧ c ≠ bar)
    (hdigit : isDigit c = false) (hname : c ∉ u.username) : c ∉ userLine u := by
  have hn : ∀ n, c ∉ decimal n := fun n => not_mem_decimal hc.1 hdigit
  simp [userLine,hn,hc.2,hname]

/-- The line of an entry fits the buffer of `load_users`. -/
theorem userLine_length {u : User} (hid : -2^31 ≤ u.id ∧ u.id < 2^31)
    (hactive : -2^31 ≤ u.active ∧ u.active < 2^31) (hadmin : -2^31 ≤ u.isAdmin ∧ u.isAdmin < 2^31)
    (hname : u.username.length ≤ 31) : (userLine u).length+1 < 256 := by
  have hid := decimal_length hid
  have hactive := decimal_length hactive
  have hadmin := decimal_length hadmin
  simp only [userLine,List.length_append,List.length_cons]
  omega

theorem User.Storable.line_length {u : User} (h : u.Storable) : (userLine u).length+1 < 256 :=
  userLine_length h.id h.active h.isAdmin h.short

theorem parseUser_userLine {u : User} (h : u.Storable) :
    parseUser (userLine u ++ [newline]) = some u := by
  have hcstr : cstr (userLine u ++ [newline]) = userLine u ++ [newline] := by
    apply cstr_of_not_mem
    have hzero : 0 ∉ userLine u := not_mem_userLine (by decide) (by decide) h.plain.1
    simp [hzero,newline]
  have hbar : ∀ s, EndsNumber (bar::s) := fun s => endsNumber_cons (by decide)
  have hscan : scan userFormat (userLine u ++ [newline]) =
      [.int u.id,.text u.username,.int u.active,.int u.isAdmin] := by
    simp only [userFormat,userLine,List.append_assoc,List.cons_append]
    rw [scan_decimal (Or.inl rfl) h.id (hbar _),scan_literal,
      scan_upTo h.nonempty h.short h.plain.2.1,scan_literal,
      scan_decimal (Or.inl rfl) h.active (hbar _),scan_literal,
      scan_decimal (Or.inl rfl) h.isAdmin (endsNumber_cons (by decide))]
    rfl
  simp only [parseUser,hcstr,hscan]

/-- The lines of a saved table, as long as they fit the buffer. -/
theorem fgetsLines_usersText {users : List User} (hplain : ∀ u ∈ users, newline ∉ userLine u)
    (hlength : ∀ u ∈ users, (userLine u).length+1 < 256) :
    fgetsLines 256 (usersText users) = users.map (fun u => userLine u ++ [newline]) := by
  have hmap : usersText users = (users.map userLine).flatMap (fun l => l ++ [newline]) := by
    rw [usersText,List.flatMap_map]
  rw [hmap,fgetsLines_lines,List.map_map]
  · rfl
  · intro l hl
    obtain ⟨u,hu,rfl⟩ := List.mem_map.mp hl
    exact hplain u hu
  · intro l hl
    obtain ⟨u,hu,rfl⟩ := List.mem_map.mp hl
    exact hlength u hu

/-- The reading loop of `load_users` finds the saved table in the file. -/
theorem readUsers_usersText {users : List User} (h : ∀ u ∈ users, u.Storable)
    (hcount : users.length ≤ maxUsers) :
    readUsers (fgetsLines 256 (usersText users)) [] = users := by
  have hlines : fgetsLines 256 (usersText users) = users.map (fun u => userLine u ++ [newline]) :=
    fgetsLines_usersText
      (fun u hu => not_mem_userLine (by decide) (by decide) (h u hu).plain.2.2)
      (fun u hu => (h u hu).line_length)
  have hparse : (users.map (fun u => userLine u ++ [newline])).filterMap parseUser = users := by
    rw [List.filterMap_map]
    have hsome : ∀ u ∈ users, (parseUser ∘ fun u => userLine u ++ [newline]) u = some u :=
      fun u hu => parseUser_userLine (h u hu)
    rw [List.filterMap_congr hsome,List.filterMap_some]
  rw [hlines,readUsers_eq _ _ (Nat.zero_le _),hparse]
  exact List.take_of_length_le hcount

end RoundTrip

end NetLab.Chat
