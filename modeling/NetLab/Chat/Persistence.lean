import NetLab.Chat.Sessions

/-! What becomes of the user table when it cannot be saved, and of the accounts over restarts of
the server, which keep `users.db` and `messages.db` but not the memory. -/
namespace NetLab.Chat

section FailedSave

variable {s t : Server} {i : Slot} {new : List Journal}

/-- A flag that gets another value is a trace in the table. -/
theorem withActive_users_ne {k : ℕ} {u : User} (hk : s.users[k]? = some u) {active : ℤ}
    (hne : active ≠ u.active) (ok : Bool) : (s.withActive k active ok).users ≠ s.users := by
  intro heq
  have hget : (s.withActive k active ok).users[k]? = some { u with active := active } := by
    simp [Server.withActive,hk]
  rw [heq,hk] at hget
  exact hne (congrArg User.active (Option.some.inj hget)).symm

/-- A line whose journal has a failed save has changed the table. -/
theorem LineEffect.users_ne (h : LineEffect s i t) (hnew : t.journal = s.journal ++ new)
    (hfail : Journal.save false ∈ new) : t.users ≠ s.users := by
  have hsame : t.journal = s.journal → t.users ≠ s.users := by
    intro heq
    have hnil : new = [] := by simpa [heq] using hnew
    rw [hnil] at hfail
    contradiction
  have hone : ∀ e, t.journal = s.journal ++ [e] → e = .save false := by
    intro e heq
    rw [hnew] at heq
    rw [List.append_cancel_left heq] at hfail
    exact (List.mem_singleton.mp hfail).symm
  cases h with
  | answer => exact hsame rfl
  | leave => exact hsame (disconnectClient_journal s i)
  | login => exact hsame rfl
  | register => exact absurd (hone _ rfl) (by decide)
  | unsaved _ name =>
    rw [disconnectClient_users]
    exact fun heq => List.cons_ne_nil _ _ (List.append_right_eq_self.mp heq)
  | refresh => exact hsame rfl
  | enterAdmin => exact hsame rfl
  | enterChat => exact hsame rfl
  | leaveChat => exact hsame rfl
  | message => exact absurd (hone _ rfl) (by simp)
  | leaveAdmin => exact hsame rfl
  | remove _ k u hk _ hactive ok =>
    rw [closeSession_users]
    exact withActive_users_ne hk (Ne.symm hactive) ok
  | restore _ k u hk hactive ok =>
    exact withActive_users_ne hk (by rw [hactive]; exact one_ne_zero) ok

end FailedSave

/-- While the line is handled `save_users` is called and returns -1. -/
def SaveFails (s : Server) (env : LineEnv) (i : Slot) (line : Bytes) : Prop :=
  ∃ new, (s.processLine env i (cstr line)).1.journal = s.journal ++ new ∧ Journal.save false ∈ new

/-- No failed save is undone: the entry stays in the table, or the flag stays changed. -/
theorem failed_save_traced (s : Server) (env : LineEnv) (i : Slot) (line : Bytes)
    (h : SaveFails s env i line) : (s.processLine env i (cstr line)).1.users ≠ s.users := by
  obtain ⟨new,hnew,hfail⟩ := h
  obtain ⟨t,ht,sent,hs'⟩ := processLine_effect s env i (zero_not_mem_cstr line)
  rw [hs'] at hnew ⊢
  exact ht.users_ne hnew hfail

/-- The temporary file opens but cannot be renamed. -/
def readonlyEnv : LineEnv := { steadyEnv with save := ⟨true,false⟩ }

/-- A client has connected and is asked for a name. -/
def greeted : Server := firstServer.handleEntry (.connection 5)

theorem greeted_saveFails : SaveFails greeted readonlyEnv 0 (ascii "bob") :=
  ⟨[.save false],by decide,by decide⟩

theorem failed_save_traced_login :
    (greeted.processLine readonlyEnv 0 (cstr (ascii "bob"))).1.users ≠ greeted.users :=
  failed_save_traced greeted readonlyEnv 0 (ascii "bob") greeted_saveFails

/-- The first login of bob is refused because he cannot be saved, and he stays in the table. -/
theorem failed_save_bob :
    (serving LoadedTable).Reachable greeted ∧ SaveFails greeted readonlyEnv 0 (ascii "bob") ∧
      (greeted.processLine readonlyEnv 0 (cstr (ascii "bob"))).1.users =
        greeted.users ++ [⟨2,ascii "bob",1,0⟩] := by
  refine ⟨.step firstServer_reachable trivial (a := .connection 5) ?_,greeted_saveFails,by decide⟩
  exact serving_step.mpr ⟨by decide,rfl⟩

/-- The record was appended while `id`, its sender or receiver, belonged to `name`. -/
def Journal.Owner (id : ℤ) (name : Bytes) : Journal → Prop
  | .append table _ sender receiver _ =>
    (id = sender ∨ id = receiver) ∧ ∃ u ∈ table, u.id = id ∧ u.username = name
  | _ => False

/-- The accounts that a message record mentions. -/
def Journal.ids : Journal → List ℤ
  | .append _ _ sender receiver _ => [sender,receiver]
  | _ => []

/-- What the record adds to `messages.db`. -/
def Journal.text : Journal → Bytes
  | .append _ time sender receiver message => messageLine time sender receiver message ++ [newline]
  | _ => []

/-- The server over its restarts: only the files outlive the process, and the journal, which
nothing reads, goes on. -/
inductive Site
  | down (disk : Disk) (journal : List Journal)
  | up (server : Server)

/-- A start with the answers to `load_users` and the listening socket, if it can be had; the end
of the process; an event. A process that is killed while it handles a chunk leaves the files
as they are after the lines handled, which is what a shorter chunk leaves. -/
inductive SiteLabel
  | start (answers : LoadAnswers) (serverFd : Option ℤ)
  | stop
  | event (e : Entry)

/-- The accounts that `load_users` finds in `users.db`. -/
def Disk.stored (disk : Disk) : List User := readUsers (fgetsLines 256 (disk.usersDb.getD [])) []

/-- Sessions of the server on a disk whose files are missing or empty at first. -/
def site : Machine Site SiteLabel where
  init x := ∃ disk : Disk, disk.usersDb.getD [] = [] ∧ disk.messagesDb.getD [] = [] ∧ x = .down disk []
  step
    | .down disk journal,.start answers serverFd =>
      match loadUsers answers disk,serverFd with
      | (some users,disk),some serverFd => some (.up (Server.boot users disk serverFd journal))
      | (_,disk),_ => some (.down disk journal)
    | .up s,.stop => some (.down s.disk s.journal)
    | .up s,.event e => if e.Fits s then some (.up (s.handleEntry e)) else none
    | _,_ => none

/-- A start ends with or without a process; a stop leaves the files; an event is handled. -/
theorem site_step {x y : Site} {a : SiteLabel} (h : site.step x a = some y) :
    (∃ disk journal answers serverFd, x = .down disk journal ∧ a = .start answers serverFd ∧
      (y = .down (loadUsers answers disk).2 journal ∨
        ∃ users fd, (loadUsers answers disk).1 = some users ∧
          y = .up (Server.boot users (loadUsers answers disk).2 fd journal))) ∨
    (∃ s, x = .up s ∧ y = .down s.disk s.journal) ∨
    (∃ s e, e.Fits s ∧ x = .up s ∧ y = .up (s.handleEntry e)) := by
  cases x with
  | down disk journal =>
    cases a with
    | start answers serverFd =>
      refine Or.inl ⟨disk,journal,answers,serverFd,rfl,rfl,?_⟩
      simp only [site] at h
      split at h
      · next users disk' fd hload =>
        rw [hload]
        exact Or.inr ⟨users,fd,rfl,(Option.some.inj h).symm⟩
      · next disk' hload _ =>
        rw [hload]
        exact Or.inl (Option.some.inj h).symm
    | stop => simp [site] at h
    | event e => simp [site] at h
  | up s =>
    cases a with
    | start answers serverFd => simp [site] at h
    | stop => exact Or.inr (Or.inl ⟨s,rfl,(Option.some.inj h).symm⟩)
    | event e =>
      obtain ⟨hfits,hy⟩ := guarded_eq_some.mp h
      exact Or.inr (Or.inr ⟨s,e,hfits,rfl,hy⟩)

/-- At a start every account that a record of `messages.db` mentions is in `users.db`. -/
def Covered : Site → SiteLabel → Prop
  | .down disk journal,.start _ _ => ∀ e ∈ journal, ∀ id ∈ e.ids, ∃ u ∈ disk.stored, u.id = id
  | _,_ => True

instance : (x : Site) → (a : SiteLabel) → Decidable (Covered x a)
  | .down disk journal,.start _ _ => inferInstanceAs
    (Decidable (∀ e ∈ journal, ∀ id ∈ e.ids, ∃ u ∈ disk.stored, u.id = id))
  | .down _ _,.stop => isTrue trivial
  | .down _ _,.event _ => isTrue trivial
  | .up _,_ => isTrue trivial

section Numbered

/-- A table as the server builds it: ids 1, 2, 3, … in this order, and entries that the file
format can hold. -/
structure Numbered (users : List User) : Prop where
  id : ∀ (n : ℕ) u, users[n]? = some u → u.id = n+1
  storable : ∀ u ∈ users, u.Storable
  count : users.length ≤ maxUsers

variable {users : List User}

theorem Numbered.nil : Numbered [] := ⟨by simp,by simp,Nat.zero_le _⟩

/-- The entry at position `n` is the one with the id `n+1`. -/
theorem Numbered.get_id (h : Numbered users) {u : User} (hu : u ∈ users) :
    ∃ n : ℕ, u.id = n+1 ∧ users[n]? = some u := by
  obtain ⟨n,hn⟩ := List.mem_iff_getElem?.mp hu
  exact ⟨n,h.id n u hn,hn⟩

theorem Numbered.newUserId (h : Numbered users) (hroom : users.length < maxUsers) :
    newUserId users = users.length+1 := by
  have hmax : getMaxUserId users = users.length := by
    obtain ⟨hnonneg,hbound,hfrom⟩ := getMaxUserId_spec users
    apply le_antisymm
    · rcases hfrom with hzero | ⟨u,hu,hid⟩
      · omega
      · obtain ⟨n,hn,hget⟩ := h.get_id hu
        have hlt : n < users.length := (List.getElem?_eq_some_iff.mp hget).1
        omega
    · cases hn : users.length with
      | zero => exact_mod_cast hnonneg
      | succ n =>
        have hget : users[n]? = some users[n] := List.getElem?_eq_getElem (by omega)
        have hlast := h.id n _ hget
        have hle := hbound _ (List.getElem_mem (by omega : n < users.length))
        push_cast
        omega
  have hsmall : (users.length : ℤ) < 1000 := by exact_mod_cast hroom
  rw [Chat.newUserId,getMaxUserId_zero,hmax,wrapInt,Int.bmod_eq_of_le] <;> omega

theorem Numbered.append (h : Numbered users) {u : User} (hroom : users.length < maxUsers)
    (hid : u.id = users.length+1) (hu : u.Storable) : Numbered (users ++ [u]) where
  id n v hn := by
    by_cases hlt : n < users.length
    · rw [List.getElem?_append_left hlt] at hn
      exact h.id n v hn
    · have hbound : n < (users ++ [u]).length := (List.getElem?_eq_some_iff.mp hn).1
      rw [List.length_append,List.length_singleton] at hbound
      obtain rfl : n = users.length := by omega
      rw [List.getElem?_concat_length] at hn
      rw [← Option.some.inj hn,hid]
  storable v hv := by
    rcases List.mem_append.mp hv with hv | hv
    · exact h.storable v hv
    · rwa [List.mem_singleton.mp hv]
  count := by
    rw [List.length_append,List.length_singleton]
    omega

theorem mem_modify {k : ℕ} {change : User → User} {v : User} (hv : v ∈ users.modify k change) :
    ∃ u ∈ users, v = u ∨ v = change u := by
  obtain ⟨n,hn⟩ := List.mem_iff_getElem?.mp hv
  rw [List.getElem?_modify] at hn
  obtain ⟨u,hu,rfl⟩ := Option.map_eq_some_iff.mp hn
  refine ⟨u,List.mem_of_getElem? hu,?_⟩
  split_ifs
  · exact Or.inr rfl
  · exact Or.inl rfl

/-- A change of flags keeps the numbering. -/
theorem Numbered.modify (h : Numbered users) (k : ℕ) {change : User → User}
    (hid : ∀ u, (change u).id = u.id) (hstorable : ∀ u, u.Storable → (change u).Storable) :
    Numbered (users.modify k change) where
  id n v hn := by
    have hmap : (users.map User.id)[n]? = some v.id := by
      rw [← map_modify_of_eq User.id k hid,List.getElem?_map,hn]
      rfl
    rw [List.getElem?_map] at hmap
    obtain ⟨u,hu,huv⟩ := Option.map_eq_some_iff.mp hmap
    rw [← huv]
    exact h.id n u hu
  storable v hv := by
    obtain ⟨u,hu,rfl | rfl⟩ := mem_modify hv
    · exact h.storable _ hu
    · exact hstorable u (h.storable u hu)
  count := by
    rw [List.length_modify]
    exact h.count

/-- A flag is 0 or 1. -/
theorem User.Storable.withActive {u : User} (h : u.Storable) {active : ℤ}
    (hactive : -2^31 ≤ active ∧ active < 2^31) : User.Storable { u with active := active } :=
  ⟨h.id,hactive,h.isAdmin,h.nonempty,h.short,h.plain⟩

theorem ahmet_storable {id : ℤ} (h : -2^31 ≤ id ∧ id < 2^31) : User.Storable ⟨id,ahmet,1,1⟩ where
  id := h
  active := by norm_num
  isAdmin := by norm_num
  nonempty := (by decide : ahmet ≠ [])
  short := (by decide : ahmet.length ≤ 31)
  plain := (by decide : 0 ∉ ahmet ∧ bar ∉ ahmet ∧ newline ∉ ahmet)

/-- `load_users` adds its admin behind the accounts it has read, or changes flags. -/
theorem ensureAdmin_numbered {saved : List User} (h : Numbered saved)
    (hu : ensureAdmin saved = some users) :
    Numbered users ∧ saved.map User.username <+: users.map User.username := by
  unfold ensureAdmin at hu
  cases hk : findUserIndexByName saved ahmet with
  | none =>
    simp only [hk] at hu
    split_ifs at hu with hfull
    obtain rfl := Option.some.inj hu
    refine ⟨h.append (not_le.mp hfull) (h.newUserId (not_le.mp hfull)) ?_,?_⟩
    · have hid := h.newUserId (not_le.mp hfull)
      have hroom : (saved.length : ℤ) < 1000 := by exact_mod_cast not_le.mp hfull
      exact ahmet_storable (by omega)
    · rw [List.map_append]
      exact List.prefix_append _ _
  | some k =>
    simp only [hk] at hu
    obtain rfl := Option.some.inj hu
    refine ⟨h.modify k (fun _ => rfl) (fun u hs => ?_),?_⟩
    · exact ⟨hs.id,by norm_num,by norm_num,hs.nonempty,hs.short,hs.plain⟩
    · have hnames : (saved.modify k (fun u => { u with active := 1, isAdmin := 1 })).map
          User.username = saved.map User.username := map_modify_of_eq User.username k (fun _ => rfl)
      rw [hnames]

end Numbered

section Messages

/-- `messages.db` consists of the records that have been appended. -/
def MessagesKept (disk : Disk) (journal : List Journal) : Prop :=
  disk.messagesDb.getD [] = journal.flatMap Journal.text

variable {s t : Server} {i : Slot}

/-- A step that appends `e` to the journal and its text to the file. -/
theorem MessagesKept.append {disk disk' : Disk} {journal : List Journal}
    (h : MessagesKept disk journal) {e : Journal}
    (hdisk : disk'.messagesDb.getD [] = disk.messagesDb.getD [] ++ e.text) :
    MessagesKept disk' (journal ++ [e]) := by
  rw [MessagesKept,List.flatMap_append,List.flatMap_singleton,hdisk,h]

theorem MessagesKept.attempt {disk : Disk} {journal : List Journal} (h : MessagesKept disk journal)
    (users : List User) (ok : Bool) :
    MessagesKept (if ok then { disk with usersDb := some (usersText users) } else disk)
      (journal ++ [.save ok]) := by
  apply h.append
  cases ok with
  | false => exact (List.append_nil _).symm
  | true => exact (List.append_nil _).symm

theorem MessagesKept.disconnect (h : MessagesKept s.disk s.journal) (i : Slot) :
    MessagesKept (s.disconnectClient i).disk (s.disconnectClient i).journal := by
  rwa [disconnectClient_disk,disconnectClient_journal]

theorem LineEffect.messages (h : MessagesKept s.disk s.journal) (he : LineEffect s i t) :
    MessagesKept t.disk t.journal := by
  cases he with
  | leave => exact h.disconnect i
  | register => exact h.attempt _ true
  | unsaved _ name =>
    have hattempt : MessagesKept (s.registered name false).disk (s.registered name false).journal :=
      h.attempt (s.registered name false).users false
    exact hattempt.disconnect i
  | message => exact h.append rfl
  | remove _ k u _ _ _ ok =>
    rw [closeSession_disk,closeSession_journal]
    exact h.attempt _ ok
  | restore _ k u _ _ ok => exact h.attempt _ ok
  | _ => exact h

theorem messages_event : EventInvariant (fun s => MessagesKept s.disk s.journal) where
  client i :=
    { tells := by
        rintro s t ⟨sent,rfl⟩ hs
        exact hs
      buffer := fun s buffer hs => hs
      line := fun s t _ he hs => he.messages hs
      close := fun s hs => hs.disconnect i
      recv := fun s fd hs => hs.append (List.append_nil _).symm }
  connect s i fd _ _ _ hs := hs
  refuse s fd _ _ hs := hs

theorem loadUsers_messagesDb (answers : LoadAnswers) (disk : Disk) :
    (loadUsers answers disk).2.messagesDb = disk.messagesDb := by
  unfold loadUsers
  by_cases hopens : (!answers.opens) = true
  · rw [if_pos hopens]
  · rw [if_neg hopens]
    dsimp only
    cases ensureAdmin (readUsers (fgetsLines 256 (disk.usersDb.getD [])) []) with
    | none => rfl
    | some users =>
      dsimp only
      rcases saveUsers_cases answers.save users
        { disk with usersDb := some (disk.usersDb.getD []) } with h | h
      · rw [h]
      · rw [h]

def Site.Messages : Site → Prop
  | .down disk journal => MessagesKept disk journal
  | .up s => MessagesKept s.disk s.journal

/-- Over all restarts `messages.db` is what the journal says. -/
theorem site_messages {x : Site} (h : site.Reachable x) : x.Messages := by
  refine h.invariant ?_ ?_
  · rintro x ⟨disk,-,hmessages,rfl⟩
    exact hmessages
  · intro x a y _ ih _ hy
    rcases site_step hy with ⟨disk,journal,answers,serverFd,rfl,-,hend⟩ | ⟨s,rfl,rfl⟩ |
      ⟨s,e,hfits,rfl,rfl⟩
    · have hkept : MessagesKept (loadUsers answers disk).2 journal := by
        rw [MessagesKept,loadUsers_messagesDb]
        exact ih
      rcases hend with rfl | ⟨users,fd,-,rfl⟩
      · exact hkept
      · exact hkept
    · exact ih
    · exact messages_event.handleEntry hfits ih

end Messages

section Recorded

/-- What the files and the journal say about the accounts called `names` in the order of their
ids: a message record mentions an account under its name, and `users.db` has the first ones. -/
structure Recorded (names : List Bytes) (disk : Disk) (journal : List Journal) : Prop where
  owner : ∀ e ∈ journal, ∀ id name, e.Owner id name → ∃ n : ℕ, id = n+1 ∧ names[n]? = some name
  saved : ∃ saved, Numbered saved ∧ disk.usersDb.getD [] = usersText saved ∧
    saved.map User.username <+: names

variable {names names' : List Bytes} {disk : Disk} {journal : List Journal} {users : List User}

theorem getElem?_of_initial {α : Type*} {xs ys : List α} {n : ℕ} {x : α} (hle : xs <+: ys)
    (h : xs[n]? = some x) : ys[n]? = some x := by
  obtain ⟨rest,rfl⟩ := hle
  rw [List.getElem?_append_left (List.getElem?_eq_some_iff.mp h).1,h]

theorem Journal.Owner.mem_ids {e : Journal} {id : ℤ} {name : Bytes} (h : e.Owner id name) :
    id ∈ e.ids := by
  cases e with
  | append table time sender receiver message => simpa [Journal.ids] using h.1
  | save => exact h.elim
  | recv => exact h.elim

theorem Recorded.grow (h : Recorded names disk journal) (hle : names <+: names') :
    Recorded names' disk journal where
  owner e he id name ho := by
    obtain ⟨n,hn,hget⟩ := h.owner e he id name ho
    exact ⟨n,hn,getElem?_of_initial hle hget⟩
  saved := by
    obtain ⟨saved,hsaved,hdb,hfirst⟩ := h.saved
    exact ⟨saved,hsaved,hdb,hfirst.trans hle⟩

/-- An entry of the journal that is no message record. -/
theorem Recorded.note (h : Recorded names disk journal) {e : Journal} (hids : e.ids = []) :
    Recorded names disk (journal ++ [e]) where
  owner d hd id name ho := by
    rcases List.mem_append.mp hd with hd | hd
    · exact h.owner d hd id name ho
    · rw [List.mem_singleton.mp hd] at ho
      have hmem := ho.mem_ids
      rw [hids] at hmem
      contradiction
  saved := h.saved

/-- A whole table has been saved. -/
theorem Recorded.save (h : Recorded (users.map User.username) disk journal) (hu : Numbered users) :
    Recorded (users.map User.username) { disk with usersDb := some (usersText users) } journal where
  owner := h.owner
  saved := ⟨users,hu,rfl,List.prefix_refl _⟩

/-- A message is stored: its parties have their names of this moment. -/
theorem Recorded.message (h : Recorded (users.map User.username) disk journal)
    (hu : Numbered users) (time sender receiver : ℤ) (message : Bytes) :
    Recorded (users.map User.username)
      { disk with messagesDb := some (disk.messagesDb.getD [] ++
        (messageLine time sender receiver message ++ [newline])) }
      (journal ++ [.append users time sender receiver message]) where
  owner e he id name ho := by
    rcases List.mem_append.mp he with he | he
    · exact h.owner e he id name ho
    · rw [List.mem_singleton.mp he] at ho
      obtain ⟨-,u,hmem,rfl,rfl⟩ := ho
      obtain ⟨n,hn,hget⟩ := hu.get_id hmem
      refine ⟨n,hn,?_⟩
      rw [List.getElem?_map,hget]
      rfl
  saved := h.saved

/-- An account that `users.db` still has is there under its name. -/
theorem owner_saved {saved : List User} (hsaved : Numbered saved)
    (hfirst : saved.map User.username <+: names) {n : ℕ} {name : Bytes}
    (hget : names[n]? = some name) {u : User} (hu : u ∈ saved) (hid : u.id = n+1) :
    (saved.map User.username)[n]? = some name := by
  obtain ⟨m,hm,hgetu⟩ := hsaved.get_id hu
  obtain rfl : m = n := by omega
  have hname : (saved.map User.username)[m]? = some u.username := by
    rw [List.getElem?_map,hgetu]
    rfl
  have hold := getElem?_of_initial hfirst hname
  rw [hget] at hold
  rw [hname,Option.some.inj hold]

/-- `load_users` when `users.db` has every account that is mentioned: all keep their names. -/
theorem Recorded.load (h : Recorded names disk journal) (answers : LoadAnswers)
    (hcovered : ∀ e ∈ journal, ∀ id ∈ e.ids, ∃ u ∈ disk.stored, u.id = id) :
    (∃ names', Recorded names' (loadUsers answers disk).2 journal) ∧
    ∀ users, (loadUsers answers disk).1 = some users →
      Numbered users ∧ Recorded (users.map User.username) (loadUsers answers disk).2 journal := by
  obtain ⟨saved,hsaved,hdb,hfirst⟩ := h.saved
  have hstored : disk.stored = saved := by
    rw [Disk.stored,hdb,readUsers_usersText hsaved.storable hsaved.count]
  -- the file exists once it has been opened
  have hfile : Recorded (saved.map User.username)
      { disk with usersDb := some (disk.usersDb.getD []) } journal := by
    refine ⟨fun e he id name ho => ?_,⟨saved,hsaved,hdb,List.prefix_refl _⟩⟩
    obtain ⟨n,rfl,hget⟩ := h.owner e he id name ho
    obtain ⟨u,hu,hid⟩ := hcovered e he _ ho.mem_ids
    rw [hstored] at hu
    exact ⟨n,rfl,owner_saved hsaved hfirst hget hu hid⟩
  unfold loadUsers
  by_cases hopens : answers.opens = true
  · rw [if_neg (by simp [hopens])]
    dsimp only
    rw [← Disk.stored,hstored]
    cases hadmin : ensureAdmin saved with
    | none => exact ⟨⟨_,hfile⟩,by simp⟩
    | some users =>
      obtain ⟨husers,hle⟩ := ensureAdmin_numbered hsaved hadmin
      have hgrown := hfile.grow hle
      dsimp only
      rcases saveUsers_cases answers.save users
        { disk with usersDb := some (disk.usersDb.getD []) } with hs | hs
      · rw [hs]
        exact ⟨⟨_,hgrown⟩,by simp⟩
      · rw [hs]
        refine ⟨⟨_,hgrown.save husers⟩,fun users' heq => ?_⟩
        obtain rfl : users = users' := by simpa using heq
        exact ⟨husers,hgrown.save husers⟩
  · rw [if_pos (by simpa using hopens)]
    exact ⟨⟨names,h⟩,by simp⟩

end Recorded

section Steps

/-- The table in memory is numbered, and the files and the journal agree with it. -/
structure Server.Persists (s : Server) : Prop where
  numbered : Numbered s.users
  recorded : Recorded (s.users.map User.username) s.disk s.journal

variable {s t : Server} {i : Slot}

theorem Server.Persists.of_same (h : s.Persists) (husers : t.users = s.users)
    (hdisk : t.disk = s.disk) (hjournal : t.journal = s.journal) : t.Persists where
  numbered := by rw [husers]; exact h.numbered
  recorded := by rw [husers,hdisk,hjournal]; exact h.recorded

theorem Server.Persists.disconnect (h : s.Persists) (i : Slot) : (s.disconnectClient i).Persists :=
  h.of_same (disconnectClient_users s i) (disconnectClient_disk s i) (disconnectClient_journal s i)

/-- An attempt to save a new table, in which the accounts so far have kept their places. -/
theorem Recorded.attempt {names : List Bytes} {disk : Disk} {journal : List Journal}
    {users : List User} (h : Recorded names disk journal) (hu : Numbered users)
    (hle : names <+: users.map User.username) (ok : Bool) :
    Recorded (users.map User.username)
      (if ok then { disk with usersDb := some (usersText users) } else disk)
      (journal ++ [.save ok]) := by
  have hnoted := (h.grow hle).note (e := .save ok) rfl
  cases ok with
  | false => exact hnoted
  | true => exact hnoted.save hu

theorem registered_persists (h : s.Persists) {name : Bytes} (hname : NewName s name)
    (hroom : s.users.length < maxUsers) (ok : Bool) : (s.registered name ok).Persists := by
  have hid := h.numbered.newUserId hroom
  have hsmall : (s.users.length : ℤ) < 1000 := by exact_mod_cast hroom
  have hstorable : User.Storable ⟨newUserId s.users,name,1,0⟩ :=
    ⟨by dsimp only; omega,by norm_num,by norm_num,hname.nonempty,Nat.le_of_lt_succ hname.short,
      hname.plain⟩
  have hnumbered := h.numbered.append hroom hid hstorable
  refine ⟨hnumbered,h.recorded.attempt hnumbered ?_ ok⟩
  rw [List.map_append]
  exact List.prefix_append _ _

theorem withActive_persists (h : s.Persists) (k : ℕ) {active : ℤ}
    (hactive : -2^31 ≤ active ∧ active < 2^31) (ok : Bool) : (s.withActive k active ok).Persists := by
  have hnumbered : Numbered (s.users.modify k (fun u => { u with active := active })) :=
    h.numbered.modify k (fun _ => rfl) (fun u hu => hu.withActive hactive)
  refine ⟨hnumbered,h.recorded.attempt hnumbered ?_ ok⟩
  rw [map_modify_active User.username k active (fun _ => rfl)]

theorem LineEffect.persists (h : s.Persists) (he : LineEffect s i t) : t.Persists := by
  cases he with
  | answer => exact h
  | leave => exact h.disconnect i
  | login => exact h.of_same rfl rfl rfl
  | register _ name hname hroom => exact (registered_persists h hname hroom true).of_same rfl rfl rfl
  | unsaved _ name hname hroom => exact (registered_persists h hname hroom false).disconnect i
  | refresh => exact h.of_same rfl rfl rfl
  | enterAdmin => exact h.of_same rfl rfl rfl
  | enterChat => exact h.of_same rfl rfl rfl
  | leaveChat => exact h.of_same rfl rfl rfl
  | message _ u _ _ _ time text =>
    exact ⟨h.numbered,h.recorded.message h.numbered time (s.clients i).userId u.id text⟩
  | leaveAdmin => exact h.of_same rfl rfl rfl
  | remove _ k u _ _ _ ok =>
    exact (withActive_persists h k (by norm_num) ok).of_same (closeSession_users _ _)
      (closeSession_disk _ _) (closeSession_journal _ _)
  | restore _ k u _ _ ok => exact withActive_persists h k (by norm_num) ok

theorem persists_event : EventInvariant Server.Persists where
  client i :=
    { tells := by
        rintro s t ⟨sent,rfl⟩ hs
        exact hs.of_same rfl rfl rfl
      buffer := fun s buffer hs => hs.of_same rfl rfl rfl
      line := fun s t _ he hs => he.persists hs
      close := fun s hs => hs.disconnect i
      recv := fun s fd hs => ⟨hs.numbered,hs.recorded.note rfl⟩ }
  connect s i fd _ _ _ hs := hs.of_same rfl rfl rfl
  refuse s fd _ _ hs := hs.of_same rfl rfl rfl

end Steps

/-- What holds of the files, and of the memory while there is one. -/
def Site.Kept : Site → Prop
  | .down disk journal => ∃ names, Recorded names disk journal
  | .up s => s.Persists

theorem site_kept {x : Site} (h : site.ReachableUnder Covered x) : x.Kept := by
  refine h.invariant ?_ ?_
  · rintro x ⟨disk,husers,-,rfl⟩
    exact ⟨[],by simp,[],.nil,husers,List.prefix_refl _⟩
  · intro x a y _ ih hcovered hy
    rcases site_step hy with ⟨disk,journal,answers,serverFd,rfl,rfl,hend⟩ | ⟨s,rfl,rfl⟩ |
      ⟨s,e,hfits,rfl,rfl⟩
    · obtain ⟨names,hnames⟩ := ih
      obtain ⟨hdown,hup⟩ := hnames.load answers hcovered
      rcases hend with rfl | ⟨users,fd,husers,rfl⟩
      · exact hdown
      · obtain ⟨hnumbered,hrecorded⟩ := hup users husers
        exact ⟨hnumbered,hrecorded⟩
    · exact ⟨_,ih.recorded⟩
    · exact persists_event.handleEntry hfits ih

/-- `messages.db` has the records of the journal; and if `users.db` has every account mentioned in
them whenever the server starts, then an id keeps the owner it had in any of them. -/
theorem id_keeps_owner {s : Server} (h : site.ReachableUnder Covered (.up s)) :
    MessagesKept s.disk s.journal ∧ ∀ e ∈ s.journal, ∀ id name, e.Owner id name →
      ∀ u ∈ s.users, u.id = id → u.username = name := by
  have hkept := site_kept h
  refine ⟨site_messages h.reachable,?_⟩
  intro e he id name ho u hu hid
  obtain ⟨n,hn,hget⟩ := hkept.recorded.owner e he id name ho
  obtain ⟨m,hm,hgetu⟩ := hkept.numbered.get_id hu
  obtain rfl : m = n := by omega
  rw [List.getElem?_map,hgetu] at hget
  exact Option.some.inj hget

/-- A machine without files. -/
def emptySite : Site := .down ⟨none,none⟩ []

theorem emptySite_init : site.init emptySite := ⟨⟨none,none⟩,rfl,rfl,rfl⟩

/-- The server starts and nothing fails. -/
def steadyStart : SiteLabel := .start ⟨true,⟨true,true⟩⟩ (some 3)

def connects (fd : ℤ) (text : String) (env : LineEnv) : List SiteLabel :=
  [.event (.connection fd),.event (.lines fd text env)]

/-- Bob's message to ahmet. -/
def bobsMessage : Journal :=
  .append [⟨1,ahmet,1,1⟩,⟨2,ascii "bob",1,0⟩] 0 2 1 (ascii "hi")

/-- The process that is running, if there is one. -/
def Site.server : Site → Option Server
  | .down _ _ => none
  | .up s => some s

theorem Site.server_eq_some {x : Site} {s : Server} (h : x.server = some s) : x = .up s := by
  cases x with
  | down disk journal => simp [Site.server] at h
  | up t => exact congrArg Site.up (Option.some.inj h)

/-- Bob is saved, writes to ahmet, and the server is started again. -/
def bobSaved : List SiteLabel :=
  steadyStart::(connects 5 "bob\nn ahmet\nhi\n" steadyEnv ++ [.stop,steadyStart])

theorem id_keeps_owner_bob :
    ∃ s, site.ReachableUnder Covered (.up s) ∧ bobsMessage ∈ s.journal ∧
      MessagesKept s.disk s.journal ∧ ∃ u ∈ s.users, u.id = 2 ∧ u.username = ascii "bob" := by
  have hrun : (((site.restrict Covered).run bobSaved emptySite).bind Site.server).map
      (fun s => decide (bobsMessage ∈ s.journal ∧ ∃ u ∈ s.users, u.id = 2)) = some true := by decide
  obtain ⟨s,hs,hfacts⟩ := Option.map_eq_some_iff.mp hrun
  obtain ⟨x,hx,hserver⟩ := Option.bind_eq_some_iff.mp hs
  obtain rfl := Site.server_eq_some hserver
  obtain ⟨hmem,u,hu,hid⟩ := of_decide_eq_true hfacts
  have hreach := Machine.ReachableUnder.of_run (.init emptySite_init) hx
  have howner : bobsMessage.Owner 2 (ascii "bob") :=
    ⟨Or.inl rfl,⟨2,ascii "bob",1,0⟩,by decide,rfl,rfl⟩
  obtain ⟨hmessages,howners⟩ := id_keeps_owner hreach
  exact ⟨s,hreach,hmem,hmessages,u,hu,hid,howners _ hmem _ _ howner u hu hid⟩

/-- Bob cannot be saved at his first login, comes back, writes to ahmet, and after the next
start eve gets his id. -/
def bobLost : List SiteLabel :=
  steadyStart::(connects 5 "bob\n" readonlyEnv ++ connects 5 "bob\nn ahmet\nhi\n" steadyEnv ++
    [.stop,steadyStart] ++ connects 5 "eve\n" steadyEnv)

theorem id_changes_owner :
    ∃ s, site.Reachable (.up s) ∧ bobsMessage ∈ s.journal ∧
      bobsMessage.Owner 2 (ascii "bob") ∧ (⟨2,ascii "eve",1,0⟩ : User) ∈ s.users := by
  have hrun : ((site.run bobLost emptySite).bind Site.server).map
      (fun s => decide (bobsMessage ∈ s.journal ∧ (⟨2,ascii "eve",1,0⟩ : User) ∈ s.users)) =
        some true := by decide
  obtain ⟨s,hs,hfacts⟩ := Option.map_eq_some_iff.mp hrun
  obtain ⟨x,hx,hserver⟩ := Option.bind_eq_some_iff.mp hs
  obtain rfl := Site.server_eq_some hserver
  obtain ⟨hmem,heve⟩ := of_decide_eq_true hfacts
  refine ⟨s,Machine.Reachable.of_run (.init emptySite_init) hx,hmem,?_,heve⟩
  exact ⟨Or.inl rfl,⟨2,ascii "bob",1,0⟩,by decide,rfl,rfl⟩

end NetLab.Chat
