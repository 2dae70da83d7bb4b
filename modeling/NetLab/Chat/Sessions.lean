import NetLab.Chat.Loop

/-! Identities and sessions over whole runs of one server process: ids and names stay distinct,
and every logged-in slot belongs to exactly one active account. -/
namespace NetLab.Chat

def intMax : ℤ := 2^31-1

/-- Distinct ids and names, at most `MAX_USERS` entries, and ids low enough for the accounts that
can still be added. -/
structure TableOk (users : List User) : Prop where
  ids : (users.map User.id).Nodup
  names : (users.map User.username).Nodup
  count : users.length ≤ maxUsers
  room : ∀ u ∈ users, u.id+(maxUsers-users.length : ℕ) ≤ intMax

/-- What a slot says about the account it is used for. -/
structure SlotOk (users : List User) (c : Client) : Prop where
  loggedIn : c.loggedIn = true ↔ c.active = true ∧ c.mode ≠ .login
  owner : c.loggedIn = true → ∃ u ∈ users, u.id = c.userId ∧ u.active ≠ 0
  admin : c.mode = .admin → ∃ u ∈ users, u.id = c.userId ∧ u.isAdmin ≠ 0
  chat : c.mode = .chat → c.chatPartnerId ≠ c.userId ∧ ∃ u ∈ users, u.id = c.chatPartnerId

structure SessionInv (users : List User) (clients : Slot → Client) : Prop where
  table : TableOk users
  slot : ∀ i, SlotOk users (clients i)
  unique : ∀ i j, (clients i).loggedIn = true → (clients j).loggedIn = true →
    (clients i).userId = (clients j).userId → i = j

def Server.SessionInv (s : Server) : Prop := Chat.SessionInv s.users s.clients

/-- What holds of the sessions whatever the ids and names in the table. -/
structure Sessions (users : List User) (clients : Slot → Client) : Prop where
  slot : ∀ i, SlotOk users (clients i)
  unique : ∀ i j, (clients i).loggedIn = true → (clients j).loggedIn = true →
    (clients i).userId = (clients j).userId → i = j

def Server.Sessions (s : Server) : Prop := Chat.Sessions s.users s.clients

section Table

variable {users : List User}

theorem foldl_max_spec (users : List User) (start : ℤ) :
    let top := users.foldl (fun maxId u => if u.id > maxId then u.id else maxId) start
    start ≤ top ∧ (∀ u ∈ users, u.id ≤ top) ∧ (top = start ∨ ∃ u ∈ users, u.id = top) := by
  induction users generalizing start with
  | nil => simp
  | cons u users ih =>
    obtain ⟨hge,hall,hfrom⟩ := ih (if u.id > start then u.id else start)
    dsimp only at hge hall hfrom ⊢
    rw [List.foldl_cons]
    refine ⟨?_,?_,?_⟩
    · split_ifs at hge ⊢ <;> omega
    · intro v hv
      rcases List.mem_cons.mp hv with rfl | hv
      · split_ifs at hge ⊢ <;> omega
      · exact hall v hv
    · rcases hfrom with heq | ⟨v,hv,hid⟩
      · by_cases hu : u.id > start
        · rw [if_pos hu] at heq ⊢
          exact Or.inr ⟨u,List.mem_cons_self,heq.symm⟩
        · rw [if_neg hu] at heq ⊢
          exact Or.inl heq
      · exact Or.inr ⟨v,List.mem_cons_of_mem _ hv,hid⟩

/-- `get_max_user_id` is at least 0, bounds every id, and is 0 or one of them. -/
theorem getMaxUserId_spec (users : List User) :
    0 ≤ getMaxUserId users ∧ (∀ u ∈ users, u.id ≤ getMaxUserId users) ∧
      (getMaxUserId users = 0 ∨ ∃ u ∈ users, u.id = getMaxUserId users) :=
  foldl_max_spec users 0

theorem getMaxUserId_zero (users : List User) :
    getMaxUserId (users ++ [User.zero]) = getMaxUserId users := by
  have h := (getMaxUserId_spec users).1
  have hz : ¬ User.zero.id > getMaxUserId users := by
    change ¬ (0 : ℤ) > _
    omega
  rw [getMaxUserId,List.foldl_append,List.foldl_cons,List.foldl_nil]
  exact if_neg hz

/-- While there is room in the table the next id does not overflow, and it is new. -/
theorem TableOk.newUserId (h : TableOk users) (hroom : users.length < maxUsers) :
    newUserId users = getMaxUserId users+1 ∧
      newUserId users+(maxUsers-(users.length+1) : ℕ) ≤ intMax ∧
      ∀ u ∈ users, u.id < newUserId users := by
  obtain ⟨hnonneg,hbound,hfrom⟩ := getMaxUserId_spec users
  have htop : getMaxUserId users+(maxUsers-users.length : ℕ) ≤ intMax := by
    rcases hfrom with hzero | ⟨u,hu,hid⟩
    · have hmax : (maxUsers : ℤ) ≤ intMax := by decide
      omega
    · rw [← hid]
      exact h.room u hu
  have heq : NetLab.Chat.newUserId users = getMaxUserId users+1 := by
    rw [NetLab.Chat.newUserId,getMaxUserId_zero,wrapInt]
    have hlt : getMaxUserId users+1 ≤ intMax := by omega
    simp only [intMax] at hlt
    rw [Int.bmod_eq_of_le] <;> omega
  refine ⟨heq,by omega,fun u hu => ?_⟩
  have := hbound u hu
  omega

theorem nodup_map_concat {α : Type*} {f : User → α} (h : (users.map f).Nodup) {u : User}
    (hu : ∀ v ∈ users, f v ≠ f u) : ((users ++ [u]).map f).Nodup := by
  rw [List.map_append,List.nodup_append']
  refine ⟨h,List.nodup_singleton _,?_⟩
  intro x hx hx'
  obtain ⟨v,hv,rfl⟩ := List.mem_map.mp hx
  exact hu v hv (by simpa using hx')

/-- Adding an account with a new id and an unused name. -/
theorem TableOk.append (h : TableOk users) {u : User} (hroom : users.length < maxUsers)
    (hid : ∀ v ∈ users, v.id ≠ u.id) (hname : ∀ v ∈ users, v.username ≠ u.username)
    (hbound : u.id+(maxUsers-(users.length+1) : ℕ) ≤ intMax) : TableOk (users ++ [u]) := by
  constructor
  · exact nodup_map_concat h.ids hid
  · exact nodup_map_concat h.names hname
  · rw [List.length_append,List.length_singleton]
    omega
  · intro v hv
    rw [List.length_append,List.length_singleton]
    rcases List.mem_append.mp hv with hv | hv
    · have := h.room v hv
      omega
    · obtain rfl := List.mem_singleton.mp hv
      exact hbound

/-- Changing an entry leaves alone what the change does not look at. -/
theorem map_modify_of_eq {α : Type*} (f : User → α) (k : ℕ) {change : User → User}
    (hf : ∀ u : User, f (change u) = f u) : (users.modify k change).map f = users.map f := by
  apply List.ext_getElem?
  intro n
  rw [List.getElem?_map,List.getElem?_map,List.getElem?_modify]
  cases users[n]? with
  | none => rfl
  | some u =>
    by_cases hn : k = n
    · simp [hn,hf]
    · simp [hn]

theorem map_modify_active {α : Type*} (f : User → α) (k : ℕ) (active : ℤ)
    (hf : ∀ u : User, f { u with active := active } = f u) :
    (users.modify k (fun u => { u with active := active })).map f = users.map f :=
  map_modify_of_eq f k hf

theorem TableOk.modify (h : TableOk users) (k : ℕ) (active : ℤ) :
    TableOk (users.modify k (fun u => { u with active := active })) where
  ids := by rw [map_modify_active User.id k active (fun _ => rfl)]; exact h.ids
  names := by rw [map_modify_active User.username k active (fun _ => rfl)]; exact h.names
  count := by rw [List.length_modify]; exact h.count
  room := by
    intro v hv
    have hid : v.id ∈ users.map User.id := by
      rw [← map_modify_active User.id k active (fun _ => rfl)]
      exact List.mem_map_of_mem hv
    obtain ⟨u,hu,huv⟩ := List.mem_map.mp hid
    rw [List.length_modify,← huv]
    exact h.room u hu

/-- A changed entry, and one behind another index. -/
theorem change_mem_modify {k : ℕ} {u : User} (hk : users[k]? = some u) (change : User → User) :
    change u ∈ users.modify k change := by
  refine List.mem_of_getElem? (i := k) ?_
  rw [List.getElem?_modify,hk]
  simp

theorem mem_modify_of_ne {k n : ℕ} {v : User} (hn : users[n]? = some v) (hkn : k ≠ n)
    (change : User → User) : v ∈ users.modify k change := by
  refine List.mem_of_getElem? (i := n) ?_
  rw [List.getElem?_modify,hn]
  simp [hkn]

/-- Every account survives a change of a flag, and every other account unchanged. -/
theorem mem_modify_active {k : ℕ} {u : User} (hk : users[k]? = some u) (active : ℤ) {v : User}
    (hv : v ∈ users) : ∃ w ∈ users.modify k (fun u => { u with active := active }),
      w.id = v.id ∧ w.isAdmin = v.isAdmin ∧ (v.id ≠ u.id ∨ active ≠ 0 → v.active ≠ 0 → w.active ≠ 0) := by
  obtain ⟨n,hn⟩ := List.mem_iff_getElem?.mp hv
  by_cases hkn : k = n
  · subst hkn
    obtain rfl : u = v := by
      rw [hk] at hn
      exact Option.some.inj hn
    refine ⟨_,change_mem_modify hk _,rfl,rfl,?_⟩
    rintro (hne | hne) -
    · exact absurd rfl hne
    · exact hne
  · exact ⟨v,mem_modify_of_ne hn hkn _,rfl,rfl,fun _ h => h⟩

end Table

section Slots

variable {users users' : List User} {clients : Slot → Client} {c : Client} {i : Slot}

theorem SlotOk.free : SlotOk users Client.free where
  loggedIn := by simp [Client.free]
  owner h := by simp [Client.free] at h
  admin h := by simp [Client.free] at h
  chat h := by simp [Client.free] at h

theorem SlotOk.connected (fd : ℤ) : SlotOk users (Client.connected fd) where
  loggedIn := by simp [Client.connected]
  owner h := by simp [Client.connected] at h
  admin h := by simp [Client.connected] at h
  chat h := by simp [Client.connected] at h

/-- A table may change as long as it keeps the accounts the slot refers to. -/
theorem SlotOk.of_users (h : SlotOk users c)
    (hkeep : ∀ u ∈ users, ∃ w ∈ users', w.id = u.id ∧ w.isAdmin = u.isAdmin ∧
      (c.loggedIn = true → u.id = c.userId → u.active ≠ 0 → w.active ≠ 0)) : SlotOk users' c where
  loggedIn := h.loggedIn
  owner hl := by
    obtain ⟨u,hu,hid,hactive⟩ := h.owner hl
    obtain ⟨w,hw,hwid,-,hwactive⟩ := hkeep u hu
    exact ⟨w,hw,hwid.trans hid,hwactive hl hid hactive⟩
  admin hm := by
    obtain ⟨u,hu,hid,hadmin⟩ := h.admin hm
    obtain ⟨w,hw,hwid,hwadmin,-⟩ := hkeep u hu
    exact ⟨w,hw,hwid.trans hid,by rwa [hwadmin]⟩
  chat hm := by
    obtain ⟨hne,u,hu,hid⟩ := h.chat hm
    obtain ⟨w,hw,hwid,-⟩ := hkeep u hu
    exact ⟨hne,w,hw,hwid.trans hid⟩

/-- Changing one slot, in agreement with the table and with the other sessions. -/
theorem Sessions.setSlot (h : Sessions users clients) (hslot : SlotOk users c)
    (hunique : c.loggedIn = true → ∀ j, j ≠ i → (clients j).loggedIn = true →
      (clients j).userId ≠ c.userId) : Sessions users (Function.update clients i c) where
  slot j := by
    by_cases hj : j = i
    · subst hj
      rwa [Function.update_self]
    · rw [Function.update_of_ne hj]
      exact h.slot j
  unique j k hlj hlk hid := by
    by_cases hj : j = i <;> by_cases hk : k = i
    · rw [hj,hk]
    · subst hj
      rw [Function.update_self] at hlj hid
      rw [Function.update_of_ne hk] at hlk hid
      exact absurd hid.symm (hunique hlj k hk hlk)
    · subst hk
      rw [Function.update_self] at hlk hid
      rw [Function.update_of_ne hj] at hlj hid
      exact absurd hid (hunique hlk j hj hlj)
    · rw [Function.update_of_ne hj] at hlj hid
      rw [Function.update_of_ne hk] at hlk hid
      exact h.unique j k hlj hlk hid

/-- A change that keeps whose session the slot holds. -/
theorem Sessions.setMode (h : Sessions users clients) (hslot : SlotOk users c)
    (hlogged : c.loggedIn = (clients i).loggedIn) (hid : c.userId = (clients i).userId) :
    Sessions users (Function.update clients i c) := by
  refine h.setSlot hslot (fun hl j hj hlj heq => hj ?_)
  exact h.unique j i hlj (hlogged ▸ hl) (heq.trans hid)

theorem Sessions.setFree (h : Sessions users clients) (i : Slot) :
    Sessions users (Function.update clients i Client.free) :=
  h.setSlot SlotOk.free (fun hl => Bool.noConfusion hl)

/-- A slot that is free has no session. -/
theorem SlotOk.loggedIn_of_mode (h : SlotOk users c) (hactive : c.active = true)
    (hmode : c.mode ≠ .login) : c.loggedIn = true := h.loggedIn.mpr ⟨hactive,hmode⟩

/-- Coming back to the menu. -/
theorem SlotOk.backToMenu (h : SlotOk users c) (hactive : c.active = true) (hmode : c.mode ≠ .login)
    (partnerId : ℤ) (ids : List ℤ) : SlotOk users { c with
      mode := .menu, chatPartnerId := partnerId, menuContactIds := ids } where
  loggedIn := by simp [hactive,h.loggedIn_of_mode hactive hmode]
  owner := h.owner
  admin hm := by simp at hm
  chat hm := by simp at hm

end Slots

section Steps

variable {s t : Server} {i : Slot}

/-- The session of the account `u` begins in a slot where nobody is logged in. -/
theorem loggedInAs_sessions (h : s.Sessions) (hactive : (s.clients i).active = true) {u : User}
    (hu : u ∈ s.users) (huactive : u.active ≠ 0)
    (hfree : ∀ j, (s.clients j).loggedIn = true → (s.clients j).userId ≠ u.id) (ids : List ℤ) :
    (s.loggedInAs i u ids).Sessions := by
  refine h.setSlot ⟨?_,fun _ => ⟨u,hu,rfl,huactive⟩,?_,?_⟩ (fun _ j _ hj => hfree j hj)
  · simp [hactive]
  · intro hm
    simp at hm
  · intro hm
    simp at hm

/-- A new account leaves the others and their sessions as they are. -/
theorem registered_sessions (h : s.Sessions) (name : Bytes) (ok : Bool) :
    (s.registered name ok).Sessions := by
  refine ⟨fun j => ?_,h.unique⟩
  exact (h.slot j).of_users
    (fun v hv => ⟨v,List.mem_append_left _ hv,rfl,rfl,fun _ _ hactive => hactive⟩)

/-- Nobody is logged in under an id that no account has. -/
theorem Server.Sessions.free_of_unused (h : s.Sessions) {id : ℤ} (hunused : ∀ v ∈ s.users, v.id ≠ id)
    (j : Slot) (hj : (s.clients j).loggedIn = true) : (s.clients j).userId ≠ id := by
  obtain ⟨u,hu,hid,-⟩ := (h.slot j).owner hj
  rw [← hid]
  exact hunused u hu

/-- After its session has been closed an account may lose its flag. -/
theorem withActive_sessions {k : ℕ} {u : User} (hk : s.users[k]? = some u) {active : ℤ} (ok : Bool)
    (clients : Slot → Client) (hclients : Chat.Sessions s.users clients)
    (hfree : active = 0 → ∀ j, (clients j).loggedIn = true → (clients j).userId ≠ u.id) :
    Chat.Sessions (s.withActive k active ok).users clients := by
  refine ⟨fun j => ?_,hclients.unique⟩
  refine (hclients.slot j).of_users (fun v hv => ?_)
  obtain ⟨w,hw,hid,hadmin,hactive⟩ := mem_modify_active hk active hv
  refine ⟨w,hw,hid,hadmin,fun hl hv' => hactive ?_⟩
  by_cases hzero : active = 0
  · refine Or.inl (fun hvu => hfree hzero j hl ?_)
    rw [← hv',hvu]
  · exact Or.inr hzero

/-- Only the session that `find_client_by_user_id` finds belongs to an account. -/
theorem closeSession_free (h : s.Sessions) (userId : ℤ) (j : Slot)
    (hj : ((s.closeSession (s.findClientByUserId userId)).clients j).loggedIn = true) :
    ((s.closeSession (s.findClientByUserId userId)).clients j).userId ≠ userId := by
  cases hf : s.findClientByUserId userId with
  | none =>
    simp only [hf,Server.closeSession] at hj ⊢
    exact findClientByUserId_none hf ((h.slot j).loggedIn.mp hj).1 hj
  | some i =>
    obtain ⟨hactive,hlogged,hid⟩ := findClientByUserId_some hf
    simp only [hf,Server.closeSession,disconnectClient_eq hactive] at hj ⊢
    have hji : j ≠ i := by
      rintro rfl
      rw [Server.setClient_clients_self] at hj
      exact Bool.noConfusion hj
    rw [Server.setClient_clients_of_ne _ _ hji] at hj ⊢
    exact fun heq => hji (h.unique j i hj hlogged (heq.trans hid.symm))

theorem disconnectClient_sessions (h : s.Sessions) (i : Slot) : (s.disconnectClient i).Sessions := by
  unfold Server.disconnectClient
  split
  · exact h
  · exact h.setFree i

theorem closeSession_sessions (h : s.Sessions) (target : Option Slot) :
    (s.closeSession target).Sessions := by
  cases target with
  | none => exact h
  | some j => exact disconnectClient_sessions h j

/-- Closing a session looks at the slots only. -/
theorem closeSession_clients {s s' : Server} (h : s'.clients = s.clients) (target : Option Slot) :
    (s'.closeSession target).clients = (s.closeSession target).clients := by
  cases target with
  | none => exact h
  | some j =>
    change (s'.disconnectClient j).clients = (s.disconnectClient j).clients
    unfold Server.disconnectClient
    rw [h]
    split
    · exact h
    · change Function.update s'.clients j Client.free = Function.update s.clients j Client.free
      rw [h]

/-- A line keeps the sessions right, as long as an account it adds gets an id nobody has. -/
theorem LineEffect.sessions (h : s.Sessions) (hactive : (s.clients i).active = true)
    (he : LineEffect s i t)
    (hnew : s.users.length < t.users.length → ∀ v ∈ s.users, v.id ≠ newUserId s.users) :
    t.Sessions := by
  have hslot := h.slot i
  cases he with
  | answer => exact h
  | leave => exact disconnectClient_sessions h i
  | login _ u hu huactive hfree ids =>
    refine loggedInAs_sessions h hactive hu huactive (fun j hj => ?_) ids
    exact findClientByUserId_none hfree ((h.slot j).loggedIn.mp hj).1 hj
  | register _ name _ _ ids =>
    refine loggedInAs_sessions (registered_sessions h name true) hactive ?_ one_ne_zero ?_ ids
    · exact List.mem_append_right _ (List.mem_singleton_self _)
    · have hlonger : s.users.length < ((s.registered name true).users).length := by
        simp [Server.registered]
      exact h.free_of_unused (hnew hlonger)
  | unsaved _ name => exact disconnectClient_sessions (registered_sessions h name false) i
  | refresh _ ids => exact h.setMode ⟨hslot.loggedIn,hslot.owner,hslot.admin,hslot.chat⟩ rfl rfl
  | enterAdmin hm hadmin =>
    have hlogged := hslot.loggedIn_of_mode hactive (by simp [hm])
    refine h.setMode ⟨?_,hslot.owner,fun _ => ?_,?_⟩ rfl rfl
    · simp [hactive,hlogged]
    · unfold isAdminId at hadmin
      cases hk : findUserIndexById s.users (s.clients i).userId with
      | none => simp [hk] at hadmin
      | some k =>
        obtain ⟨hmem,hid⟩ := findUserIndexById_some hk
        exact ⟨_,hmem,hid,by simpa [hk] using hadmin⟩
    · intro hc
      simp at hc
  | enterChat hm u hu hother =>
    have hlogged := hslot.loggedIn_of_mode hactive (by simp [hm])
    refine h.setMode ⟨?_,hslot.owner,?_,fun _ => ⟨hother,u,hu,rfl⟩⟩ rfl rfl
    · simp [hactive,hlogged]
    · intro hc
      simp at hc
  | leaveChat hm ids =>
    exact h.setMode (hslot.backToMenu hactive (by simp [hm]) (-1) ids) rfl rfl
  | message => exact h
  | leaveAdmin hm ids => exact h.setMode (hslot.backToMenu hactive (by simp [hm]) _ ids) rfl rfl
  | remove _ k u hk _ _ ok =>
    have hclosed := closeSession_sessions h (s.findClientByUserId u.id)
    rw [Server.Sessions,closeSession_users] at hclosed
    rw [Server.Sessions,closeSession_users,
      closeSession_clients (show (s.withActive k 0 ok).clients = s.clients from rfl)]
    exact withActive_sessions hk ok _ hclosed (fun _ => closeSession_free h u.id)
  | restore _ k u hk _ ok => exact withActive_sessions hk ok _ h (fun h10 => absurd h10 one_ne_zero)

/-- What the table looks like after a line. -/
theorem LineEffect.users_cases (he : LineEffect s i t) : t.users = s.users ∨
    (∃ name, (s.clients i).mode = .login ∧ NewName s name ∧ s.users.length < maxUsers ∧
      t.users = s.users ++ [⟨newUserId s.users,name,1,0⟩]) ∨
    ∃ k u active, (s.clients i).mode = .admin ∧ s.users[k]? = some u ∧
      ((active = 0 ∧ u.isAdmin = 0 ∧ u.active ≠ 0) ∨ (active = 1 ∧ u.active = 0)) ∧
      t.users = s.users.modify k (fun u => { u with active := active }) := by
  cases he with
  | answer => exact Or.inl rfl
  | leave => exact Or.inl (disconnectClient_users s i)
  | login => exact Or.inl rfl
  | register hm name hname hroom => exact Or.inr (Or.inl ⟨name,hm,hname,hroom,rfl⟩)
  | unsaved hm name hname hroom =>
    exact Or.inr (Or.inl ⟨name,hm,hname,hroom,disconnectClient_users _ i⟩)
  | refresh => exact Or.inl rfl
  | enterAdmin => exact Or.inl rfl
  | enterChat => exact Or.inl rfl
  | leaveChat => exact Or.inl rfl
  | message => exact Or.inl rfl
  | leaveAdmin => exact Or.inl rfl
  | remove hm k u hk hadmin hactive ok =>
    exact Or.inr (Or.inr ⟨k,u,0,hm,hk,Or.inl ⟨rfl,hadmin,hactive⟩,closeSession_users _ _⟩)
  | restore hm k u hk hactive ok => exact Or.inr (Or.inr ⟨k,u,1,hm,hk,Or.inr ⟨rfl,hactive⟩,rfl⟩)

theorem NewName.unused_name {name : Bytes} (h : NewName s name) :
    ∀ v ∈ s.users, v.username ≠ name := by
  intro v hv
  simpa using List.findIdx?_eq_none_iff.mp h.unused v hv

theorem LineEffect.tableOk (h : TableOk s.users) (he : LineEffect s i t) : TableOk t.users := by
  rcases he.users_cases with hsame | ⟨name,-,hname,hroom,hadd⟩ | ⟨k,u,active,-,-,-,hmodify⟩
  · rwa [hsame]
  · obtain ⟨-,hbound,hnew⟩ := h.newUserId hroom
    rw [hadd]
    exact h.append hroom (fun v hv => (hnew v hv).ne) hname.unused_name hbound
  · rw [hmodify]
    exact h.modify k active

theorem LineEffect.sessionInv (h : s.SessionInv) (hactive : (s.clients i).active = true)
    (he : LineEffect s i t) : t.SessionInv := by
  have hsessions : t.Sessions := by
    refine he.sessions ⟨h.slot,h.unique⟩ hactive (fun hlonger => ?_)
    rcases he.users_cases with hsame | ⟨-,-,-,hroom,-⟩ | ⟨k,u,active,-,-,-,hmodify⟩
    · rw [hsame] at hlonger
      exact absurd hlonger (lt_irrefl _)
    · exact fun v hv => ((h.table.newUserId hroom).2.2 v hv).ne
    · rw [hmodify,List.length_modify] at hlonger
      exact absurd hlonger (lt_irrefl _)
  exact ⟨he.tableOk h.table,hsessions.slot,hsessions.unique⟩

theorem sessionInv_event : EventInvariant Server.SessionInv where
  client i :=
    { tells := by
        rintro s t ⟨sent,rfl⟩ hs
        exact hs
      buffer := fun s buffer hs => by
        have hsessions : s.Sessions := ⟨hs.slot,hs.unique⟩
        have hset := Sessions.setMode hsessions (i := i)
          (c := { s.clients i with inputBuffer := buffer })
          ⟨(hs.slot i).loggedIn,(hs.slot i).owner,(hs.slot i).admin,(hs.slot i).chat⟩ rfl rfl
        exact ⟨hs.table,hset.slot,hset.unique⟩
      line := fun s t hactive he hs => he.sessionInv hs hactive
      close := fun s hs => by
        have hclosed := disconnectClient_sessions (s := s) ⟨hs.slot,hs.unique⟩ i
        refine ⟨?_,hclosed.slot,hclosed.unique⟩
        rw [disconnectClient_users]
        exact hs.table
      recv := fun s fd hs => hs }
  connect s i fd _ _ _ hs := by
    have hsessions : s.Sessions := ⟨hs.slot,hs.unique⟩
    have hset : Sessions s.users (Function.update s.clients i (Client.connected fd)) :=
      Sessions.setSlot hsessions (SlotOk.connected fd) (fun hl => Bool.noConfusion hl)
    exact ⟨hs.table,hset.slot,hset.unique⟩
  refuse s fd _ _ hs := hs

end Steps

/-- A user table as `load_users` may leave it: distinct ids and names, and ids at most
`INT_MAX - 1000`. -/
structure LoadedTable (users : List User) : Prop where
  ids : (users.map User.id).Nodup
  names : (users.map User.username).Nodup
  count : users.length ≤ maxUsers
  low : ∀ u ∈ users, u.id ≤ intMax-maxUsers

theorem LoadedTable.tableOk {users : List User} (h : LoadedTable users) : TableOk users where
  ids := h.ids
  names := h.names
  count := h.count
  room u hu := by
    have := h.low u hu
    omega

theorem boot_sessionInv {users : List User} (h : LoadedTable users) (disk : Disk) (serverFd : ℤ) :
    (Server.boot users disk serverFd []).SessionInv where
  table := h.tableOk
  slot _ := SlotOk.free
  unique _ _ hl := Bool.noConfusion hl

/-- Between two events of any run from a loaded table: ids and names are distinct, the flags of
every slot agree with its mode and with the table, no account has two sessions, and no buffer
is full or holds a complete line. -/
theorem sessions_sound {s : Server} (h : (serving LoadedTable).Reachable s) :
    (s.users.map User.id).Nodup ∧ (s.users.map User.username).Nodup ∧ s.users.length ≤ maxUsers ∧
    (∀ i, (s.clients i).loggedIn = true ↔
      (s.clients i).active = true ∧ (s.clients i).mode ≠ .login) ∧
    (∀ i, (s.clients i).loggedIn = true →
      ∃ u ∈ s.users, u.id = (s.clients i).userId ∧ u.active ≠ 0) ∧
    (∀ i j, (s.clients i).loggedIn = true → (s.clients j).loggedIn = true →
      (s.clients i).userId = (s.clients j).userId → i = j) ∧
    (∀ i, (s.clients i).mode = .admin →
      ∃ u ∈ s.users, u.id = (s.clients i).userId ∧ u.isAdmin ≠ 0) ∧
    (∀ i, (s.clients i).mode = .chat → (s.clients i).chatPartnerId ≠ (s.clients i).userId ∧
      ∃ u ∈ s.users, u.id = (s.clients i).chatPartnerId) ∧
    (∀ i, (s.clients i).active = true →
      (s.clients i).inputBuffer.length < inputBufferSize ∧ newline ∉ (s.clients i).inputBuffer) := by
  have hinv := sessionInv_event.reachable (fun _ disk fd hl => boot_sessionInv hl disk fd) h
  have hinput : InputsOk s := by
    refine h.invariant (I := InputsOk) ?_ ?_
    · rintro s ⟨users,disk,serverFd,-,rfl⟩ i
      exact inputOk_free
    · intro s e t _ ih _ ht
      obtain ⟨-,rfl⟩ := serving_step.mp ht
      exact handleEntry_inputs ih e
  exact ⟨hinv.table.ids,hinv.table.names,hinv.table.count,fun i => (hinv.slot i).loggedIn,
    fun i => (hinv.slot i).owner,hinv.unique,fun i => (hinv.slot i).admin,
    fun i => (hinv.slot i).chat,hinput⟩

theorem firstServer_reachable : (serving LoadedTable).Reachable firstServer := by
  have hloaded : LoadedTable firstTable :=
    ⟨by decide,by decide,by decide,by decide⟩
  exact .init ⟨firstTable,_,3,hloaded,rfl⟩

/-- The admin logs in and opens the admin page. -/
def adminLogin : List Entry := [.connection 5,.lines 5 "ahmet\na\n" steadyEnv]

theorem sessions_sound_adminLogin :
    ∃ s, (serving LoadedTable).run adminLogin firstServer = some s ∧
      (s.clients 0).mode = .admin ∧ ∃ u ∈ s.users, u.id = (s.clients 0).userId ∧ u.isAdmin ≠ 0 := by
  have hr : ((serving LoadedTable).run adminLogin firstServer).isSome = true := by decide
  obtain ⟨s,hs⟩ := Option.isSome_iff_exists.mp hr
  have hmode : ((serving LoadedTable).run adminLogin firstServer).map
      (fun s => (s.clients 0).mode) = some .admin := by decide
  rw [hs] at hmode
  have hadmin : (s.clients 0).mode = .admin := Option.some.inj hmode
  obtain ⟨-,-,-,-,-,-,hall,-⟩ := sessions_sound (Machine.Reachable.of_run firstServer_reachable hs)
  exact ⟨s,hs,hadmin,hall 0 hadmin⟩

end NetLab.Chat
