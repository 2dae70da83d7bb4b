import NetLab.Chat.Calls
import NetLab.Chat.Persistence

/-! The accounts over whole runs: what a line can do to the user table, who can change it, and
what becomes of an account from its removal on. -/
namespace NetLab.Chat

section Commands

theorem sanitizeMessage_idem (message : Bytes) :
    sanitizeMessage (sanitizeMessage message) = sanitizeMessage message := by
  induction message with
  | nil => rfl
  | cons c message ih =>
    rw [sanitizeMessage]
    split_ifs with hend hbar
    · rfl
    · rw [sanitizeMessage,if_neg (by decide),if_neg (by decide),ih]
    · rw [sanitizeMessage,if_neg hend,if_neg hbar,ih]

namespace LineCall

/-- A client that logs in types a name nobody has, and there is room for one more account. -/
def NewAccount (c : LineCall) : Prop :=
  c.client.mode = .login ∧ c.text ≠ [] ∧ c.text.length < usernameSize ∧
    findUserIndexByName c.before.users c.text = none ∧ c.before.users.length < maxUsers

/-- In the admin page a client types `letter` and the number of the entry `u`. -/
def Commands (c : LineCall) (letter : Bytes) (k : ℕ) (u : User) : Prop :=
  c.client.mode = .admin ∧ scan Server.adminFormat c.text = [.text letter,.int (k+1)] ∧
    c.before.users[k]? = some u

/-- `d n` for an account that can be removed. -/
def Removes (c : LineCall) (k : ℕ) (u : User) : Prop :=
  c.Commands (ascii "d") k u ∧ u.isAdmin = 0 ∧ u.active ≠ 0

/-- `r n` for a removed account. -/
def Restores (c : LineCall) (k : ℕ) (u : User) : Prop :=
  c.Commands (ascii "r") k u ∧ u.active = 0

instance (c : LineCall) : Decidable c.NewAccount := by
  unfold NewAccount
  infer_instance

instance (c : LineCall) (letter : Bytes) (k : ℕ) (u : User) : Decidable (c.Commands letter k u) := by
  unfold Commands
  infer_instance

instance (c : LineCall) (k : ℕ) (u : User) : Decidable (c.Removes k u) := by
  unfold Removes
  infer_instance

end LineCall

variable {s t : Server} {i : Slot}

theorem processLogin_users (s : Server) (env : LineEnv) (i : Slot) {name : Bytes}
    (hname : sanitizeMessage name = name) :
    (s.processLogin env i name).1.users = s.users ∨ (name ≠ [] ∧ name.length < usernameSize ∧
      findUserIndexByName s.users name = none ∧ s.users.length < maxUsers ∧
      (s.processLogin env i name).1.users = s.users ++ [⟨newUserId s.users,name,1,0⟩]) := by
  simp only [Server.processLogin,hname]
  by_cases hempty : name = []
  · rw [if_pos hempty]
    exact Or.inl rfl
  rw [if_neg hempty]
  by_cases hlong : usernameSize ≤ name.length
  · rw [if_pos hlong]
    exact Or.inl rfl
  rw [if_neg hlong]
  cases hk : findUserIndexByName s.users name with
  | some k =>
    left
    dsimp only
    split_ifs
    · exact disconnectClient_users _ i
    · exact disconnectClient_users _ i
    · rfl
  | none =>
    have hshort : name.length < usernameSize := not_le.mp hlong
    obtain ⟨ok,hok⟩ := saveUsers_registered s name env.save
    dsimp only
    rw [List.take_of_length_le (Nat.le_sub_one_of_lt hshort),hok]
    split_ifs with hfull
    · exact Or.inl (disconnectClient_users _ i)
    · exact Or.inr ⟨hempty,hshort,rfl,not_le.mp hfull,disconnectClient_users _ i⟩
    · exact Or.inr ⟨hempty,hshort,rfl,not_le.mp hfull,rfl⟩

theorem Server.Tells.users (h : s.Tells t) : t.users = s.users := by
  obtain ⟨sent,rfl⟩ := h
  rfl

theorem processAdmin_users (s : Server) (env : LineEnv) (i : Slot) (line : Bytes) :
    (s.processAdmin env i line).1.users = s.users ∨
    ∃ (k : ℕ) (u : User), s.users[k]? = some u ∧
      ((scan Server.adminFormat line = [.text (ascii "d"),.int (k+1)] ∧ u.isAdmin = 0 ∧ u.active ≠ 0 ∧
        (s.processAdmin env i line).1.users =
          s.users.modify k (fun u => { u with active := 0 })) ∨
      (scan Server.adminFormat line = [.text (ascii "r"),.int (k+1)] ∧ u.active = 0 ∧
        (s.processAdmin env i line).1.users =
          s.users.modify k (fun u => { u with active := 1 }))) := by
  rcases processAdmin_cases s env i line with ⟨-,hq⟩ | ⟨htells,-⟩ | ⟨k,u,hk,hd | hr⟩
  · rw [hq]
    exact Or.inl rfl
  · exact Or.inl htells.users
  · obtain ⟨hscan,hadmin,hactive,ok,t,ht,-,hpage⟩ := hd
    refine Or.inr ⟨k,u,hk,Or.inl ⟨hscan,hadmin,hactive,?_⟩⟩
    rw [hpage]
    exact ht.users.trans (closeSession_users _ _)
  · obtain ⟨hscan,hactive,ok,t,ht,-,hpage⟩ := hr
    refine Or.inr ⟨k,u,hk,Or.inr ⟨hscan,hactive,?_⟩⟩
    rw [hpage]
    exact ht.users

/-- What a line does to the table, and which line does it. -/
theorem LineCall.table_cases (c : LineCall) : c.after.users = c.before.users ∨
    (c.NewAccount ∧
      c.after.users = c.before.users ++ [⟨newUserId c.before.users,c.text,1,0⟩]) ∨
    (∃ k u, c.Removes k u ∧
      c.after.users = c.before.users.modify k (fun u => { u with active := 0 })) ∨
    (∃ k u, c.Restores k u ∧
      c.after.users = c.before.users.modify k (fun u => { u with active := 1 })) := by
  obtain ⟨t,ht,sent,hafter⟩ := c.effect
  have husers : c.after.users = t.users := by rw [hafter]
  rcases ht.users_cases with hsame | ⟨-,hm,-⟩ | ⟨-,-,-,hm,-⟩
  · exact Or.inl (husers.trans hsame)
  · -- the line of a client that logs in
    have hlogin : c.after = (c.before.processLogin c.env c.slot c.text).1 := by
      rw [LineCall.after,Server.processLine,hm]
      rfl
    rw [hlogin]
    rcases processLogin_users c.before c.env c.slot (sanitizeMessage_idem _) with
      hsame | ⟨hempty,hshort,hunused,hroom,hadd⟩
    · exact Or.inl hsame
    · exact Or.inr (Or.inl ⟨⟨hm,hempty,hshort,hunused,hroom⟩,hadd⟩)
  · -- the line of a client in the admin page
    have hadmin : c.after = (c.before.processAdmin c.env c.slot c.text).1 := by
      rw [LineCall.after,Server.processLine,hm]
      rfl
    rw [hadmin]
    rcases processAdmin_users c.before c.env c.slot c.text with hsame | ⟨k,u,hk,hd | hr⟩
    · exact Or.inl hsame
    · obtain ⟨hscan,hflag,hactive,hmodify⟩ := hd
      exact Or.inr (Or.inr (Or.inl ⟨k,u,⟨⟨hm,hscan,hk⟩,hflag,hactive⟩,hmodify⟩))
    · obtain ⟨hscan,hactive,hmodify⟩ := hr
      exact Or.inr (Or.inr (Or.inr ⟨k,u,⟨⟨hm,hscan,hk⟩,hactive⟩,hmodify⟩))

end Commands

section Tables

def intMin : ℤ := -2^31

/-- What an entry of `users[]` can hold. -/
structure User.Fits (u : User) : Prop where
  id : intMin ≤ u.id ∧ u.id ≤ intMax
  active : intMin ≤ u.active ∧ u.active ≤ intMax
  isAdmin : intMin ≤ u.isAdmin ∧ u.isAdmin ≤ intMax
  name : 0 ∉ u.username ∧ u.username.length < usernameSize

/-- What the array can hold. -/
structure TableFits (users : List User) : Prop where
  count : users.length ≤ maxUsers
  entry : ∀ u ∈ users, u.Fits

/-- The table has the largest and the smallest `int` among its ids, so that the next id, which is
one more than the largest, is taken. -/
def IdsExhausted (users : List User) : Prop :=
  (∃ u ∈ users, u.id = intMax) ∧ ∃ u ∈ users, u.id = intMin

instance (users : List User) : Decidable (IdsExhausted users) := by
  unfold IdsExhausted
  infer_instance

/-- An account is created although the ids are exhausted. -/
def LineCall.Collides (c : LineCall) : Prop := c.NewAccount ∧ IdsExhausted c.before.users

instance (c : LineCall) : Decidable c.Collides := by
  unfold LineCall.Collides
  infer_instance

variable {users : List User}

theorem wrapInt_fits (n : ℤ) : intMin ≤ wrapInt n ∧ wrapInt n ≤ intMax := by
  have hle : -((2^32 : ℕ) : ℤ)/2 ≤ n.bmod (2^32) := Int.le_bmod (by norm_num)
  have hlt : n.bmod (2^32) < (((2^32 : ℕ) : ℤ)+1)/2 := Int.bmod_lt (by norm_num)
  rw [wrapInt,intMin,intMax]
  norm_num at hle hlt ⊢
  omega

/-- Unless both ends of `int` are taken, the next id is one that no entry has. -/
theorem newUserId_unused (hfits : ∀ u ∈ users, u.Fits) (h : ¬ IdsExhausted users) :
    ∀ v ∈ users, v.id ≠ newUserId users := by
  intro v hv heq
  obtain ⟨hnonneg,hbound,hfrom⟩ := getMaxUserId_spec users
  have hv' := hbound v hv
  rw [newUserId,getMaxUserId_zero] at heq
  have htop : getMaxUserId users ≤ intMax := by
    rcases hfrom with hzero | ⟨u,hu,hid⟩
    · rw [hzero,intMax]
      norm_num
    · rw [← hid]
      exact (hfits u hu).id.2
  by_cases hmax : getMaxUserId users = intMax
  · -- the addition overflows
    have hwrap : wrapInt (getMaxUserId users+1) = intMin := by
      rw [hmax]
      decide
    refine h ⟨?_,v,hv,heq.trans hwrap⟩
    rcases hfrom with hzero | ⟨u,hu,hid⟩
    · rw [hzero,intMax] at hmax
      norm_num at hmax
    · exact ⟨u,hu,hid.trans hmax⟩
  · have hlt : getMaxUserId users+1 ≤ intMax := by omega
    rw [wrapInt,Int.bmod_eq_of_le] at heq
    · omega
    · norm_num
      omega
    · rw [intMax] at hlt
      norm_num at hlt ⊢
      omega

theorem TableFits.append (h : TableFits users) (hroom : users.length < maxUsers) {u : User}
    (hu : u.Fits) : TableFits (users ++ [u]) where
  count := by
    rw [List.length_append,List.length_singleton]
    omega
  entry v hv := by
    rcases List.mem_append.mp hv with hv | hv
    · exact h.entry v hv
    · rwa [List.mem_singleton.mp hv]

theorem TableFits.modify (h : TableFits users) (k : ℕ) {active : ℤ}
    (hactive : intMin ≤ active ∧ active ≤ intMax) :
    TableFits (users.modify k (fun u => { u with active := active })) where
  count := by
    rw [List.length_modify]
    exact h.count
  entry v hv := by
    obtain ⟨u,hu,rfl | rfl⟩ := mem_modify hv
    · exact h.entry _ hu
    · exact ⟨(h.entry u hu).id,hactive,(h.entry u hu).isAdmin,(h.entry u hu).name⟩

theorem newUser_fits (users : List User) {name : Bytes} (hzero : 0 ∉ name)
    (hshort : name.length < usernameSize) : User.Fits ⟨newUserId users,name,1,0⟩ :=
  ⟨wrapInt_fits _,(by decide : intMin ≤ 1 ∧ 1 ≤ intMax),(by decide : intMin ≤ 0 ∧ 0 ≤ intMax),
    hzero,hshort⟩

/-- A line keeps the table one that fits the array. -/
theorem LineCall.tableFits (c : LineCall) (h : TableFits c.before.users) :
    TableFits c.after.users := by
  rcases c.table_cases with hsame | ⟨⟨-,-,hshort,-,hroom⟩,hadd⟩ | ⟨k,u,-,hmodify⟩ | ⟨k,u,-,hmodify⟩
  · rwa [hsame]
  · rw [hadd]
    exact h.append hroom (newUser_fits _ c.zero_not_mem_text hshort)
  · rw [hmodify]
    exact h.modify k (by decide)
  · rw [hmodify]
    exact h.modify k (by decide)

end Tables

section Sound

variable {s t : Server} {calls : List LineCall}

/-- The table fits its array and the sessions agree with it. -/
structure Server.Sound (s : Server) : Prop where
  table : TableFits s.users
  sessions : s.Sessions

theorem Idle.users (h : Idle s t) : t.users = s.users := by
  cases h with
  | close i => exact disconnectClient_users s i
  | _ => rfl

theorem Idle.sessions (h : Idle s t) (hs : s.Sessions) : t.Sessions := by
  cases h with
  | say => exact hs
  | buffer i buffer =>
    exact hs.setMode ⟨(hs.slot i).loggedIn,(hs.slot i).owner,(hs.slot i).admin,(hs.slot i).chat⟩ rfl rfl
  | close i => exact disconnectClient_sessions hs i
  | recv => exact hs
  | connect i fd =>
    have hset : Sessions s.users (Function.update s.clients i (Client.connected fd)) :=
      Sessions.setSlot hs (SlotOk.connected fd) (fun hl => Bool.noConfusion hl)
    exact hset
  | refuse => exact hs

theorem Idle.sound (h : Idle s t) (hs : s.Sound) : t.Sound :=
  ⟨by rw [h.users]; exact hs.table,h.sessions hs.sessions⟩

/-- A line that adds an account without a collision gives it an id nobody has. -/
theorem LineCall.new_id (c : LineCall) (h : TableFits c.before.users) (hok : ¬ c.Collides)
    (hlonger : c.before.users.length < c.after.users.length) :
    ∀ v ∈ c.before.users, v.id ≠ newUserId c.before.users := by
  rcases c.table_cases with hsame | ⟨hnew,-⟩ | ⟨k,u,-,hmodify⟩ | ⟨k,u,-,hmodify⟩
  · rw [hsame] at hlonger
    exact absurd hlonger (lt_irrefl _)
  · exact newUserId_unused h.entry (fun hexhausted => hok ⟨hnew,hexhausted⟩)
  · rw [hmodify,List.length_modify] at hlonger
    exact absurd hlonger (lt_irrefl _)
  · rw [hmodify,List.length_modify] at hlonger
    exact absurd hlonger (lt_irrefl _)

theorem LineCall.sound (c : LineCall) (hactive : c.client.active = true) (hok : ¬ c.Collides)
    (h : c.before.Sound) : c.after.Sound := by
  obtain ⟨t,ht,sent,hafter⟩ := c.effect
  have husers : c.after.users = t.users := by rw [hafter]
  refine ⟨c.tableFits h.table,?_⟩
  have hsessions := ht.sessions h.sessions hactive (fun hlonger =>
    c.new_id h.table hok (by rwa [husers]))
  rw [hafter]
  exact hsessions

theorem Trace.sound (h : Trace s calls t) (hok : ∀ c ∈ calls, ¬ c.Collides) (hs : s.Sound) :
    t.Sound :=
  h.invariant (fun _ _ => Idle.sound) (fun c => c.sound) hok hs

theorem boot_sound {users : List User} (h : TableFits users) (disk : Disk) (serverFd : ℤ) :
    (Server.boot users disk serverFd []).Sound :=
  ⟨h,fun _ => SlotOk.free,fun _ _ hl => Bool.noConfusion hl⟩

end Sound

section AppendOnly

/-- The line comes from a client that is logged in as a user with `is_admin` set. -/
def LineCall.ByAdmin (c : LineCall) : Prop :=
  c.client.loggedIn = true ∧ ∃ w ∈ c.before.users, w.id = c.client.userId ∧ w.isAdmin ≠ 0

/-- What an entry of the table may become while a line is handled. -/
structure LineCall.Keeps (c : LineCall) (u v : User) : Prop where
  id : v.id = u.id
  username : v.username = u.username
  isAdmin : v.isAdmin = u.isAdmin
  active : v.active ≠ u.active → c.ByAdmin
  admin : u.isAdmin ≠ 0 → u.active ≠ 0 → v.active ≠ 0

/-- What a line may do to the table: every entry stays at its place, and a new one is that of a
login, without `is_admin` and with an id and a name that nobody has. -/
structure LineCall.TableStep (c : LineCall) : Prop where
  count : c.before.users.length ≤ c.after.users.length
  kept : ∀ (k : ℕ) u, c.before.users[k]? = some u → ∃ v, c.after.users[k]? = some v ∧ c.Keeps u v
  added : ∀ (k : ℕ) v, c.before.users.length ≤ k → c.after.users[k]? = some v →
    c.client.mode = .login ∧ v.isAdmin = 0 ∧
      ∀ u ∈ c.before.users, u.id ≠ v.id ∧ u.username ≠ v.username

/-- The table is the same from the end of a call to the beginning of the next. -/
def TablesAgree : List User → List LineCall → List User → Prop
  | users,[],users' => users' = users
  | users,c::calls,users' => c.before.users = users ∧ TablesAgree c.after.users calls users'

variable {s t : Server} {calls : List LineCall} {c : LineCall}

theorem LineCall.Keeps.refl (c : LineCall) (u : User) : c.Keeps u u :=
  ⟨rfl,rfl,rfl,fun h => absurd rfl h,fun _ h => h⟩

/-- A client in the admin page is logged in as an admin. -/
theorem LineCall.byAdmin (h : c.before.Sessions) (hactive : c.client.active = true)
    (hm : c.client.mode = .admin) : c.ByAdmin :=
  ⟨(h.slot c.slot).loggedIn_of_mode hactive (by
    change c.client.mode ≠ .login
    rw [hm]
    decide),(h.slot c.slot).admin hm⟩

theorem tableStep_same (h : c.after.users = c.before.users) : c.TableStep where
  count := by rw [h]
  kept k u hk := ⟨u,by rw [h]; exact hk,.refl c u⟩
  added k v hk hv := by
    rw [h] at hv
    exact absurd (List.getElem?_eq_some_iff.mp hv).1 (not_lt.mpr hk)

theorem tableStep_modify {k : ℕ} {u : User} {active : ℤ} (hk : c.before.users[k]? = some u)
    (hadmin : c.ByAdmin) (hkeep : u.isAdmin ≠ 0 → u.active ≠ 0 → active ≠ 0)
    (h : c.after.users = c.before.users.modify k (fun u => { u with active := active })) :
    c.TableStep where
  count := by rw [h,List.length_modify]
  kept n v hn := by
    rw [h,List.getElem?_modify,hn]
    by_cases hkn : k = n
    · subst hkn
      obtain rfl : u = v := Option.some.inj (hk.symm.trans hn)
      exact ⟨{ u with active := active },by simp,rfl,rfl,rfl,fun _ => hadmin,hkeep⟩
    · exact ⟨v,by simp [hkn],.refl c v⟩
  added n v hn hv := by
    rw [h] at hv
    have hlt := (List.getElem?_eq_some_iff.mp hv).1
    rw [List.length_modify] at hlt
    exact absurd hlt (not_lt.mpr hn)

theorem tableStep_add (hnew : c.NewAccount)
    (hid : ∀ v ∈ c.before.users, v.id ≠ newUserId c.before.users)
    (h : c.after.users = c.before.users ++ [⟨newUserId c.before.users,c.text,1,0⟩]) :
    c.TableStep where
  count := by
    rw [h,List.length_append]
    exact Nat.le_add_right _ _
  kept k u hk := by
    refine ⟨u,?_,.refl c u⟩
    rw [h,List.getElem?_append_left (List.getElem?_eq_some_iff.mp hk).1]
    exact hk
  added k v hk hv := by
    rw [h,List.getElem?_append_right hk] at hv
    obtain rfl := List.mem_singleton.mp (List.mem_of_getElem? hv)
    obtain ⟨hm,-,-,hunused,-⟩ := hnew
    refine ⟨hm,rfl,fun u hu => ⟨hid u hu,?_⟩⟩
    simpa using List.findIdx?_eq_none_iff.mp hunused u hu

theorem LineCall.tableStep (hactive : c.client.active = true) (hok : ¬ c.Collides)
    (h : c.before.Sound) : c.TableStep := by
  have hadmin := c.byAdmin h.sessions hactive
  rcases c.table_cases with hsame | ⟨hnew,hadd⟩ | ⟨k,u,⟨⟨hm,-,hk⟩,hflag,-⟩,hmodify⟩ |
    ⟨k,u,⟨⟨hm,-,hk⟩,-⟩,hmodify⟩
  · exact tableStep_same hsame
  · exact tableStep_add hnew (newUserId_unused h.table.entry (fun hex => hok ⟨hnew,hex⟩)) hadd
  · exact tableStep_modify hk (hadmin hm) (fun hflag' => absurd hflag hflag') hmodify
  · exact tableStep_modify hk (hadmin hm) (fun _ _ => one_ne_zero) hmodify

theorem Trace.tablesAgree (h : Trace s calls t) : TablesAgree s.users calls t.users := by
  induction h with
  | refl => rfl
  | idle hidle _ ih =>
    rw [← hidle.users]
    exact ih
  | line c _ _ ih => exact ⟨rfl,ih⟩

theorem Trace.tableSteps (h : Trace s calls t) (hok : ∀ c ∈ calls, ¬ c.Collides) (hs : s.Sound) :
    ∀ c ∈ calls, c.TableStep := by
  intro c hc
  obtain ⟨as,bs,rfl⟩ := List.append_of_mem hc
  obtain ⟨hbefore,hactive,-⟩ := h.before
  exact c.tableStep hactive (hok c hc)
    (hbefore.sound (fun d hd => hok d (List.mem_append_left _ hd)) hs)

/-- The table changes only in the handling of lines, and there as `TableStep` says. -/
def AppendOnly (users : List User) (calls : List LineCall) (t : Server) : Prop :=
  TablesAgree users calls t.users ∧ ∀ c ∈ calls, c.TableStep

/-- The table is append-only in every run in which no account is created while the ids are
exhausted. -/
theorem table_append_only {users : List User} (hfits : TableFits users) (disk : Disk)
    (serverFd : ℤ) {as : List Entry} {t : Server}
    (hrun : chat.run as (Server.boot users disk serverFd []) = some t)
    (hok : ∀ c ∈ runCalls as (Server.boot users disk serverFd []), ¬ c.Collides) :
    AppendOnly users (runCalls as (Server.boot users disk serverFd [])) t := by
  have htrace := run_trace (.init (boot_init users disk serverFd)) hrun
  exact ⟨htrace.tablesAgree,htrace.tableSteps hok (boot_sound hfits disk serverFd)⟩

theorem firstTable_fits : TableFits firstTable where
  count := by decide
  entry u hu := by
    obtain rfl := List.mem_singleton.mp hu
    exact ⟨by decide,by decide,by decide,by decide⟩

theorem table_append_only_bob :
    ∃ t, chat.run (Entry.session 5 "bob\n" steadyEnv) firstServer = some t ∧
      AppendOnly firstTable (runCalls (Entry.session 5 "bob\n" steadyEnv) firstServer) t := by
  have hrun : (chat.run (Entry.session 5 "bob\n" steadyEnv) firstServer).isSome = true := by decide
  obtain ⟨t,ht⟩ := Option.isSome_iff_exists.mp hrun
  exact ⟨t,ht,table_append_only firstTable_fits _ _ ht (by decide)⟩

/-- A table with both ends of `int` among its ids. -/
def exhaustedTable : List User := [⟨1,ahmet,1,1⟩,⟨intMax,ascii "bob",1,0⟩,⟨intMin,ascii "eve",1,0⟩]

theorem exhaustedTable_fits : TableFits exhaustedTable where
  count := by decide
  entry u hu := by
    have h : ∀ u ∈ exhaustedTable, (intMin ≤ u.id ∧ u.id ≤ intMax) ∧
        (intMin ≤ u.active ∧ u.active ≤ intMax) ∧ (intMin ≤ u.isAdmin ∧ u.isAdmin ≤ intMax) ∧
        0 ∉ u.username ∧ u.username.length < usernameSize := by decide
    obtain ⟨hid,hactive,hadmin,hname⟩ := h u hu
    exact ⟨hid,hactive,hadmin,hname⟩

/-- The next account gets the id that eve has. -/
theorem table_id_reused : ¬ ∀ users, TableFits users → ∀ disk serverFd as t,
    chat.run as (Server.boot users disk serverFd []) = some t →
    AppendOnly users (runCalls as (Server.boot users disk serverFd [])) t := by
  intro h
  let s := Server.boot exhaustedTable ⟨none,none⟩ 3 []
  let es := Entry.session 5 "zoe\n" steadyEnv
  have hrun : (chat.run es s).isSome = true := by decide
  obtain ⟨t,ht⟩ := Option.isSome_iff_exists.mp hrun
  obtain ⟨-,hsteps⟩ := h exhaustedTable exhaustedTable_fits _ _ _ _ ht
  have hcall : ∃ c ∈ runCalls es s, c.before.users = exhaustedTable ∧
      c.after.users[3]? = some ⟨intMin,ascii "zoe",1,0⟩ := by decide
  obtain ⟨c,hc,hbefore,hafter⟩ := hcall
  have hadded := (hsteps c hc).added 3 _ (by rw [hbefore]; decide) hafter
  rw [hbefore] at hadded
  exact (hadded.2.2 ⟨intMin,ascii "eve",1,0⟩ (by decide)).1 rfl

end AppendOnly

section Journals

/-- The record of an accepted message. -/
def Journal.isRecord : Journal → Bool
  | .append _ _ _ _ _ => true
  | _ => false

/-- Sender and receiver are two different accounts that exist and are active. -/
def Journal.Proper : Journal → Prop
  | .append table _ sender receiver _ => sender ≠ receiver ∧
    (∃ u ∈ table, u.id = sender ∧ u.active ≠ 0) ∧ ∃ u ∈ table, u.id = receiver ∧ u.active ≠ 0
  | _ => True

/-- What a call adds to the journal. -/
def LineCall.added (c : LineCall) : List Journal := c.after.journal.drop c.before.journal.length

variable {s t : Server} {i : Slot} {calls : List LineCall}

theorem LineEffect.journal_cases (he : LineEffect s i t) :
    (∃ new, t.journal = s.journal ++ new ∧ ∀ e ∈ new, e.isRecord = false) ∨
    ∃ u ∈ s.users, (s.clients i).mode = .chat ∧ u.id = (s.clients i).chatPartnerId ∧ u.active ≠ 0 ∧
      ∃ time text, t.journal = s.journal ++ [.append s.users time (s.clients i).userId u.id text] := by
  have hsame : t.journal = s.journal →
      ∃ new, t.journal = s.journal ++ new ∧ ∀ e ∈ new, e.isRecord = false :=
    fun h => ⟨[],by rw [h,List.append_nil],by simp⟩
  have hsave : ∀ ok, t.journal = s.journal ++ [.save ok] →
      ∃ new, t.journal = s.journal ++ new ∧ ∀ e ∈ new, e.isRecord = false :=
    fun ok h => ⟨[.save ok],h,by simp [Journal.isRecord]⟩
  cases he with
  | leave => exact Or.inl (hsame (disconnectClient_journal s i))
  | register => exact Or.inl (hsave true rfl)
  | unsaved => exact Or.inl (hsave false (disconnectClient_journal _ i))
  | message hm u hu hpartner hactive time text =>
    exact Or.inr ⟨u,hu,hm,hpartner,hactive,time,text,rfl⟩
  | remove _ _ _ _ _ _ ok => exact Or.inl (hsave ok (closeSession_journal _ _))
  | restore _ _ _ _ _ ok => exact Or.inl (hsave ok rfl)
  | _ => exact Or.inl (hsame rfl)

/-- A call adds to the journal; a record is that of a message to an active partner. -/
theorem LineCall.added_cases (c : LineCall) : c.after.journal = c.before.journal ++ c.added ∧
    ((∀ e ∈ c.added, e.isRecord = false) ∨
      ∃ u ∈ c.before.users, c.client.mode = .chat ∧ u.id = c.client.chatPartnerId ∧ u.active ≠ 0 ∧
        ∃ time text, c.added = [.append c.before.users time c.client.userId u.id text]) := by
  obtain ⟨t,ht,sent,hafter⟩ := c.effect
  have hadded : ∀ new, t.journal = c.before.journal ++ new → c.added = new := by
    intro new hnew
    rw [LineCall.added,hafter]
    change t.journal.drop _ = new
    rw [hnew,List.drop_left]
  have hjournal : c.after.journal = t.journal := by rw [hafter]
  rcases ht.journal_cases with ⟨new,hnew,hnone⟩ | ⟨u,hu,hm,hpartner,hactive,time,text,hnew⟩
  · rw [hjournal,hadded new hnew,hnew]
    exact ⟨rfl,Or.inl hnone⟩
  · rw [hjournal,hadded _ hnew,hnew]
    exact ⟨rfl,Or.inr ⟨u,hu,hm,hpartner,hactive,time,text,rfl⟩⟩

theorem LineCall.added_proper (c : LineCall) (hactive : c.client.active = true)
    (h : c.before.Sessions) : ∀ e ∈ c.added, e.Proper := by
  intro e he
  rcases c.added_cases.2 with hnone | ⟨u,hu,hm,hpartner,huactive,time,text,hadded⟩
  · have hrecord := hnone e he
    cases e with
    | append => exact Bool.noConfusion hrecord
    | _ => trivial
  · rw [hadded] at he
    obtain rfl := List.mem_singleton.mp he
    have hlogged := (h.slot c.slot).loggedIn_of_mode hactive (by
      change c.client.mode ≠ .login
      rw [hm]
      decide)
    have hne := ((h.slot c.slot).chat hm).1
    refine ⟨fun heq => hne (hpartner.symm.trans heq.symm),?_,u,hu,rfl,huactive⟩
    exact (h.slot c.slot).owner hlogged

theorem Idle.journal (h : Idle s t) :
    ∃ new, t.journal = s.journal ++ new ∧ ∀ e ∈ new, e.isRecord = false := by
  have hsame : t.journal = s.journal →
      ∃ new, t.journal = s.journal ++ new ∧ ∀ e ∈ new, e.isRecord = false :=
    fun h => ⟨[],by rw [h,List.append_nil],by simp⟩
  cases h with
  | close i => exact hsame (disconnectClient_journal s i)
  | recv fd => exact ⟨[.recv fd (s.fds fd)],rfl,by simp [Journal.isRecord]⟩
  | _ => exact hsame rfl

/-- The records in the journal. -/
def records (journal : List Journal) : List Journal := journal.filter Journal.isRecord

theorem records_append (journal new : List Journal) :
    records (journal ++ new) = records journal ++ records new := List.filter_append _ _

/-- All records come from calls. -/
theorem Trace.records (h : Trace s calls t) :
    records t.journal = records s.journal ++ calls.flatMap (fun c => records c.added) := by
  induction h with
  | refl => simp
  | idle hidle _ ih =>
    obtain ⟨new,hnew,hnone⟩ := hidle.journal
    have hnil : Chat.records new = [] := List.filter_eq_nil_iff.mpr (by simpa using hnone)
    rw [ih,hnew,records_append,hnil,List.append_nil]
  | line c _ _ ih =>
    rw [ih,c.added_cases.1,records_append,List.flatMap_cons,List.append_assoc]

end Journals

section Removal

/-- Ids and names are distinct. -/
structure Distinct (users : List User) : Prop where
  ids : (users.map User.id).Nodup
  names : (users.map User.username).Nodup

/-- No client slot is logged in under `id`. -/
def Server.NobodyAs (s : Server) (id : ℤ) : Prop :=
  ∀ i, (s.clients i).loggedIn = true → (s.clients i).userId ≠ id

/-- The account `u` is in the table and removed. -/
def Server.HasRemoved (s : Server) (u : User) : Prop :=
  ∃ v ∈ s.users, v.id = u.id ∧ v.username = u.username ∧ v.active = 0

/-- While the call is handled, and before and after it, the account `u` is frozen: nobody is
logged in as `u`, a login under the name is refused, and no record mentions `u`. -/
structure LineCall.Freezes (c : LineCall) (u : User) : Prop where
  before : c.before.NobodyAs u.id
  after : c.after.NobodyAs u.id
  login : c.client.mode = .login → c.text = u.username →
    c.after.users = c.before.users ∧ (c.after.clients c.slot).loggedIn = false
  records : ∀ e ∈ c.added, u.id ∉ e.ids

variable {s t : Server} {calls : List LineCall} {c : LineCall} {u v : User}

theorem eq_of_id {users : List User} (h : (users.map User.id).Nodup) (hu : u ∈ users)
    (hv : v ∈ users) (hid : u.id = v.id) : u = v := List.inj_on_of_nodup_map h hu hv hid

theorem Distinct.eq_of_name {users : List User} (h : Distinct users) (hu : u ∈ users)
    (hv : v ∈ users) (hname : u.username = v.username) : u = v :=
  List.inj_on_of_nodup_map h.names hu hv hname

/-- Ids stay distinct as long as no account is created with one that is taken. -/
theorem LineCall.ids_nodup (hfits : TableFits c.before.users) (hok : ¬ c.Collides)
    (h : (c.before.users.map User.id).Nodup) : (c.after.users.map User.id).Nodup := by
  rcases c.table_cases with hsame | ⟨hnew,hadd⟩ | ⟨k,u,-,hk⟩ | ⟨k,u,-,hk⟩
  · rwa [hsame]
  · rw [hadd]
    exact nodup_map_concat h (newUserId_unused hfits.entry (fun hex => hok ⟨hnew,hex⟩))
  · rwa [hk,map_modify_active User.id k 0 (fun _ => rfl)]
  · rwa [hk,map_modify_active User.id k 1 (fun _ => rfl)]

theorem LineCall.names_nodup (h : (c.before.users.map User.username).Nodup) :
    (c.after.users.map User.username).Nodup := by
  rcases c.table_cases with hsame | ⟨hnew,hadd⟩ | ⟨k,u,-,hk⟩ | ⟨k,u,-,hk⟩
  · rwa [hsame]
  · rw [hadd]
    refine nodup_map_concat h (fun v hv => ?_)
    simpa using List.findIdx?_eq_none_iff.mp hnew.2.2.2.1 v hv
  · rwa [hk,map_modify_active User.username k 0 (fun _ => rfl)]
  · rwa [hk,map_modify_active User.username k 1 (fun _ => rfl)]

theorem LineCall.distinct (hfits : TableFits c.before.users) (hok : ¬ c.Collides)
    (h : Distinct c.before.users) : Distinct c.after.users :=
  ⟨c.ids_nodup hfits hok h.ids,c.names_nodup h.names⟩

/-- What every moment of a run without collisions has. -/
structure Server.Orderly (s : Server) : Prop extends s.Sound where
  distinct : Distinct s.users

theorem Idle.orderly (h : Idle s t) (hs : s.Orderly) : t.Orderly :=
  ⟨h.sound hs.toSound,by rw [h.users]; exact hs.distinct⟩

theorem LineCall.orderly (c : LineCall) (hactive : c.client.active = true) (hok : ¬ c.Collides)
    (h : c.before.Orderly) : c.after.Orderly :=
  ⟨c.sound hactive hok h.toSound,c.distinct h.table hok h.distinct⟩

theorem Trace.orderly (h : Trace s calls t) (hok : ∀ c ∈ calls, ¬ c.Collides) (hs : s.Orderly) :
    t.Orderly :=
  h.invariant (fun _ _ => Idle.orderly) (fun c => c.orderly) hok hs

/-- The owner of a session is active. -/
theorem Server.HasRemoved.nobodyAs (h : s.HasRemoved u) (hs : s.Orderly) : s.NobodyAs u.id := by
  intro i hi hid
  obtain ⟨v,hv,hvid,-,hactive⟩ := h
  obtain ⟨w,hw,hwid,hwactive⟩ := (hs.sessions.slot i).owner hi
  obtain rfl := eq_of_id hs.distinct.ids hv hw (by rw [hvid,hwid,hid])
  exact hwactive hactive

/-- A `d n` that can be carried out is. -/
theorem LineCall.Removes.users {k : ℕ} (h : c.Removes k u) :
    c.after.users = c.before.users.modify k (fun u => { u with active := 0 }) := by
  obtain ⟨⟨hm,hscan,hk⟩,hadmin,hactive⟩ := h
  have hlt := (List.getElem?_eq_some_iff.mp hk).1
  have hentry : userAt c.before.users k = u := by
    rw [userAt_of_lt hlt] at hk
    exact Option.some.inj hk
  have hq : c.text ≠ ascii "q" := by
    intro hq
    have hone : (scan Server.adminFormat (ascii "q")).length = 1 := by decide
    rw [← hq,hscan] at hone
    simp at hone
  have hafter := LineCall.after_admin hm
  have hrange : ¬ ((k : ℤ)+1 < 1 ∨ (k : ℤ)+1 > c.before.users.length) := by omega
  have hindex : ((k : ℤ)+1-1).toNat = k := by omega
  rw [hafter,Server.processAdmin]
  simp only [if_neg hq,hscan,if_neg hrange,hindex,hentry,hadmin,hactive,ne_eq,not_true_eq_false,
    if_true,if_false]
  obtain ⟨ok,hok⟩ := setUserActive_eq c.before c.env k 0
  rw [hok]
  exact (dropSession_tells _ _).users.trans (closeSession_users _ _)

theorem LineCall.Removes.hasRemoved {k : ℕ} (h : c.Removes k u) : c.after.HasRemoved u := by
  refine ⟨{ u with active := 0 },?_,rfl,rfl,rfl⟩
  rw [h.users]
  exact change_mem_modify h.1.2.2 _

/-- Only `r n` for the account itself ends its removal. -/
theorem LineCall.keeps_removed (h : c.before.HasRemoved u)
    (hno : ∀ k w, c.Restores k w → w.id ≠ u.id) : c.after.HasRemoved u := by
  obtain ⟨v,hv,hid,hname,hactive⟩ := h
  obtain ⟨n,hn⟩ := List.mem_iff_getElem?.mp hv
  rcases c.table_cases with hsame | ⟨-,hadd⟩ | ⟨k,w,-,hmodify⟩ | ⟨k,w,hrestore,hmodify⟩
  · exact ⟨v,by rwa [hsame],hid,hname,hactive⟩
  · exact ⟨v,by rw [hadd]; exact List.mem_append_left _ hv,hid,hname,hactive⟩
  · by_cases hkn : k = n
    · subst hkn
      refine ⟨{ v with active := 0 },?_,hid,hname,rfl⟩
      rw [hmodify]
      exact change_mem_modify hn _
    · refine ⟨v,?_,hid,hname,hactive⟩
      rw [hmodify]
      exact mem_modify_of_ne hn hkn _
  · have hkn : k ≠ n := by
      rintro rfl
      obtain rfl : w = v := Option.some.inj (hrestore.1.2.2.symm.trans hn)
      exact hno k w hrestore hid
    refine ⟨v,?_,hid,hname,hactive⟩
    rw [hmodify]
    exact mem_modify_of_ne hn hkn _

theorem disconnectClient_loggedIn {i : Slot} (h : (s.clients i).loggedIn = false) :
    ((s.disconnectClient i).clients i).loggedIn = false := by
  by_cases hactive : (s.clients i).active = true
  · rw [disconnectClient_eq hactive,Server.setClient_clients_self]
    rfl
  · simpa [Server.disconnectClient,hactive] using h

/-- A login under the name of a removed account is refused. -/
theorem LineCall.login_refused (hs : c.before.Orderly) (h : c.before.HasRemoved u)
    (hm : c.client.mode = .login) (hname : c.text = u.username) :
    c.after.users = c.before.users ∧ (c.after.clients c.slot).loggedIn = false := by
  have hidle : (c.before.clients c.slot).loggedIn = false := by
    by_contra hl
    have hmode := ((hs.sessions.slot c.slot).loggedIn.mp (by simpa using hl)).2
    exact hmode hm
  have hafter := LineCall.after_login hm
  rw [hafter,Server.processLogin]
  have htext : sanitizeMessage c.text = c.text := sanitizeMessage_idem _
  simp only [htext]
  by_cases hempty : c.text = []
  · rw [if_pos hempty]
    exact ⟨rfl,hidle⟩
  rw [if_neg hempty]
  by_cases hlong : usernameSize ≤ c.text.length
  · rw [if_pos hlong]
    exact ⟨rfl,hidle⟩
  rw [if_neg hlong]
  obtain ⟨v,hv,-,hvname,hactive⟩ := h
  cases hk : findUserIndexByName c.before.users c.text with
  | none =>
    have hne := List.findIdx?_eq_none_iff.mp hk v hv
    simp [hvname,hname] at hne
  | some k =>
    obtain ⟨hmem,hkname⟩ := findUserIndexByName_some hk
    obtain rfl := hs.distinct.eq_of_name hmem hv (by rw [hkname,hvname,hname])
    simp only [hactive,if_true]
    exact ⟨disconnectClient_users _ _,disconnectClient_loggedIn hidle⟩

theorem LineCall.freezes (hactive : c.client.active = true) (hok : ¬ c.Collides)
    (hs : c.before.Orderly) (h : c.before.HasRemoved u)
    (hno : ∀ k w, c.Restores k w → w.id ≠ u.id) : c.Freezes u where
  before := h.nobodyAs hs
  after := (c.keeps_removed h hno).nobodyAs (c.orderly hactive hok hs)
  login := c.login_refused hs h
  records e he := by
    rcases c.added_cases.2 with hnone | ⟨w,hw,hm,-,hwactive,time,text,hadded⟩
    · have hrecord := hnone e he
      cases e with
      | append => exact Bool.noConfusion hrecord
      | _ => exact List.not_mem_nil
    · rw [hadded] at he
      obtain rfl := List.mem_singleton.mp he
      have hlogged := (hs.sessions.slot c.slot).loggedIn_of_mode hactive (by
        change c.client.mode ≠ .login
        rw [hm]
        decide)
      have hsender := h.nobodyAs hs c.slot hlogged
      have hreceiver : w.id ≠ u.id := by
        intro hid
        obtain ⟨v,hv,hvid,-,hvactive⟩ := h
        obtain rfl := eq_of_id hs.distinct.ids hw hv (by rw [hid,hvid])
        exact hwactive hvactive
      simp only [Journal.ids,List.mem_cons,List.not_mem_nil,or_false,not_or]
      exact ⟨fun heq => hsender heq.symm,fun heq => hreceiver heq.symm⟩

/-- From the removal of an account on, as long as it is not restored. -/
theorem Trace.frozen (h : Trace s calls t) (hok : ∀ c ∈ calls, ¬ c.Collides) (hs : s.Orderly)
    (hu : s.HasRemoved u) (hno : ∀ c ∈ calls, ∀ k w, c.Restores k w → w.id ≠ u.id) :
    (∀ c ∈ calls, c.Freezes u) ∧ t.HasRemoved u := by
  induction h with
  | refl => exact ⟨by simp,hu⟩
  | idle hidle _ ih =>
    refine ih hok (hidle.orderly hs) ?_ hno
    rw [Server.HasRemoved,hidle.users]
    exact hu
  | line c hactive _ ih =>
    have hc := hok c List.mem_cons_self
    have hfreezes := c.freezes hactive hc hs hu (hno c List.mem_cons_self)
    obtain ⟨hrest,hend⟩ := ih (fun d hd => hok d (List.mem_cons_of_mem _ hd))
      (c.orderly hactive hc hs) (c.keeps_removed hu (hno c List.mem_cons_self))
      (fun d hd => hno d (List.mem_cons_of_mem _ hd))
    exact ⟨List.forall_mem_cons.mpr ⟨hfreezes,hrest⟩,hend⟩

/-- In a run with these calls that ends in `t`, every record has two different active accounts,
the records are those of the calls, and a removed account is frozen until it is restored. -/
structure RemovedFrozen (calls : List LineCall) (t : Server) : Prop where
  proper : ∀ e ∈ t.journal, e.Proper
  records : records t.journal = calls.flatMap (fun c => Chat.records c.added)
  frozen : ∀ pre c mid post k u, calls = pre ++ c::(mid ++ post) → c.Removes k u →
    (∀ d ∈ mid, ∀ k' w, d.Restores k' w → w.id ≠ u.id) →
    c.after.NobodyAs u.id ∧ (∀ d ∈ mid, d.Freezes u) ∧
      (∀ d ∈ post.head?, d.before.NobodyAs u.id) ∧ (post = [] → t.NobodyAs u.id)

/-- Removed accounts are frozen in every run in which no account is created while the ids are
exhausted. -/
theorem removed_frozen {users : List User} (hfits : TableFits users) (hdistinct : Distinct users)
    (disk : Disk) (serverFd : ℤ) {as : List Entry} {t : Server}
    (hrun : chat.run as (Server.boot users disk serverFd []) = some t)
    (hok : ∀ c ∈ runCalls as (Server.boot users disk serverFd []), ¬ c.Collides) :
    RemovedFrozen (runCalls as (Server.boot users disk serverFd [])) t := by
  have htrace := run_trace (.init (boot_init users disk serverFd)) hrun
  have hboot : (Server.boot users disk serverFd []).Orderly :=
    ⟨boot_sound hfits disk serverFd,hdistinct⟩
  have hrecords : records t.journal = (runCalls as (Server.boot users disk serverFd [])).flatMap
      (fun c => records c.added) := htrace.records
  refine ⟨fun e he => ?_,hrecords,?_⟩
  · by_cases hrecord : e.isRecord = true
    · have hmem : e ∈ records t.journal := List.mem_filter.mpr ⟨he,hrecord⟩
      rw [hrecords] at hmem
      obtain ⟨c,hc,hadded⟩ := List.mem_flatMap.mp hmem
      obtain ⟨as,bs,hcalls⟩ := List.append_of_mem hc
      rw [hcalls] at htrace hok
      obtain ⟨hbefore,hactive,-⟩ := htrace.before
      have hs := hbefore.orderly (fun d hd => hok d (List.mem_append_left _ hd)) hboot
      exact c.added_proper hactive hs.sessions e (List.mem_filter.mp hadded).1
    · cases e with
      | append => exact absurd rfl hrecord
      | _ => trivial
  · intro pre c mid post k u hcalls hremoves hno
    rw [hcalls] at htrace hok
    obtain ⟨hbefore,hactive,hafter⟩ := htrace.before
    have hs := hbefore.orderly (fun d hd => hok d (by simp [hd])) hboot
    have hs' := c.orderly hactive (hok c (by simp)) hs
    obtain ⟨x,hmid,hpost⟩ := hafter.split
    have hokmid : ∀ d ∈ mid, ¬ d.Collides := fun d hd => hok d (by simp [hd])
    obtain ⟨hfreezes,hremoved⟩ := hmid.frozen hokmid hs' hremoves.hasRemoved hno
    have hx := hmid.orderly hokmid hs'
    refine ⟨hremoves.hasRemoved.nobodyAs hs',hfreezes,fun d hd => ?_,fun hnil => ?_⟩
    · obtain ⟨rest,rfl⟩ : ∃ rest, post = d::rest := by
        cases post with
        | nil => contradiction
        | cons e rest => exact ⟨rest,by rw [Option.some.inj hd]⟩
      obtain ⟨hd',-,-⟩ := hpost.cons
      exact ((hd'.frozen (by simp) hx hremoved (by simp)).2).nobodyAs (hd'.orderly (by simp) hx)
    · rw [hnil] at hpost
      exact ((hpost.frozen (by simp) hx hremoved (by simp)).2).nobodyAs (hpost.orderly (by simp) hx)

/-- Bob writes to ahmet, who then removes him. -/
def removesBob : List Entry :=
  Entry.session 5 "bob\nn ahmet\nhi\n" steadyEnv ++ Entry.session 6 "ahmet\na\nd 2\n" steadyEnv

theorem firstTable_distinct : Distinct firstTable := ⟨by decide,by decide⟩

theorem removed_frozen_bob : ∃ t, chat.run removesBob firstServer = some t ∧ t.NobodyAs 2 := by
  have hrun : (chat.run removesBob firstServer).isSome = true := by decide
  obtain ⟨t,ht⟩ := Option.isSome_iff_exists.mp hrun
  have hfrozen := removed_frozen firstTable_fits firstTable_distinct _ _ ht (by decide)
  have hlast : ∃ c ∈ (runCalls removesBob firstServer).getLast?,
      c.Removes 1 ⟨2,ascii "bob",1,0⟩ := by decide
  obtain ⟨c,hc,hremoves⟩ := hlast
  have hcalls := List.dropLast_append_getLast? c hc
  obtain ⟨-,-,-,hend⟩ := hfrozen.frozen _ c [] [] 1 _ hcalls.symm hremoves (by simp)
  exact ⟨t,ht,hend rfl⟩

/-- Zoe and kim both get the smallest `int` as their id, and zoe is removed. -/
def removesZoe : List Entry :=
  Entry.session 5 "zoe\n" steadyEnv ++ Entry.session 6 "kim\n" steadyEnv ++
    Entry.session 7 "ahmet\na\nd 3\n" steadyEnv

/-- Kim's session goes on under the id of the removed zoe. -/
theorem removed_id_in_use : ¬ ∀ users, TableFits users → Distinct users → ∀ disk serverFd as t,
    chat.run as (Server.boot users disk serverFd []) = some t →
    RemovedFrozen (runCalls as (Server.boot users disk serverFd [])) t := by
  intro h
  let users : List User := [⟨1,ahmet,1,1⟩,⟨intMax,ascii "bob",1,0⟩]
  let s := Server.boot users ⟨none,none⟩ 3 []
  have hfits : TableFits users :=
    ⟨by decide,fun u hu => exhaustedTable_fits.entry u (List.mem_of_mem_take (i := 2) hu)⟩
  have hrun : (chat.run removesZoe s).isSome = true := by decide
  obtain ⟨t,ht⟩ := Option.isSome_iff_exists.mp hrun
  have hfrozen := h users hfits ⟨by decide,by decide⟩ _ _ _ _ ht
  have hlast : ∃ c ∈ (runCalls removesZoe s).getLast?,
      c.Removes 2 ⟨intMin,ascii "zoe",1,0⟩ := by decide
  obtain ⟨c,hc,hremoves⟩ := hlast
  have hcalls := List.dropLast_append_getLast? c hc
  obtain ⟨-,-,-,hend⟩ := hfrozen.frozen _ c [] [] 2 _ hcalls.symm hremoves (by simp)
  have hkim : (chat.run removesZoe s).map
      (fun t => ((t.clients 1).loggedIn,(t.clients 1).userId)) = some (true,intMin) := by decide
  rw [ht] at hkim
  obtain ⟨hlogged,hid⟩ := Prod.mk.inj (Option.some.inj hkim)
  exact hend rfl 1 hlogged hid

end Removal

end NetLab.Chat
