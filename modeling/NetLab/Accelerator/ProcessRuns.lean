import NetLab.Accelerator.Process

/-! Runs of the relay's process: what is open is what the live connections stand for. -/
namespace NetLab.Accelerator

abbrev accounts : Machine (Finset Resource) (Deed Resource) := inventory Resource.needs

variable {held : Finset Resource} {epoll id : ℕ} {ends : Endpoints}

theorem fd_unneeding (n : ℕ) (r : Resource) : r ∉ (Resource.fd n).needs := Finset.notMem_empty r

theorem object_unneeding (id : ℕ) (r : Resource) : r ∉ (Resource.object id).needs :=
  Finset.notMem_empty r

theorem object_unneeded (id : ℕ) (q : Resource) : Resource.object id ∉ q.needs := by
  cases q <;> simp [Resource.needs]

theorem watch_unneeded (epoll n : ℕ) (q : Resource) : Resource.watch epoll n ∉ q.needs := by
  cases q <;> simp [Resource.needs]

/-! ### Calls on one descriptor -/

theorem callTwice_run {fd : ℕ} (h : .fd fd ∈ held) (first second : Bool) (log : Deeds) :
    accounts.run ((callTwice fd first second).1 ++ log) held = accounts.run log held := by
  cases first with
  | false => exact Inventory.run_use h log
  | true => exact (Inventory.run_use h _).trans (Inventory.run_use h log)

theorem setNonblocking_run {fd : ℕ} (h : .fd fd ∈ held) (getfl setfl : Bool) (log : Deeds) :
    accounts.run ((setNonblocking fd getfl setfl).1 ++ log) held = accounts.run log held :=
  callTwice_run h getfl setfl log

theorem tuneSocketBuffers_run {fd : ℕ} (h : .fd fd ∈ held) (rcvbuf sndbuf : Bool) (log : Deeds) :
    accounts.run ((tuneSocketBuffers fd rcvbuf sndbuf).1 ++ log) held = accounts.run log held :=
  callTwice_run h rcvbuf sndbuf log

/-- A descriptor that nothing else needs is opened. -/
theorem open_run {fd : ℕ} (h : .fd fd ∉ held) (log : Deeds) :
    accounts.run (.acquire (.fd fd)::log) held = accounts.run log (insert (.fd fd) held) :=
  Inventory.run_acquire h (Finset.empty_subset _) log

/-- It is closed again when nothing needs it. -/
theorem close_run {fd : ℕ} (hground : Grounded Resource.needs held) (h : .fd fd ∉ held)
    (log : Deeds) :
    accounts.run (.release (.fd fd)::log) (insert (.fd fd) held) = accounts.run log held :=
  Inventory.run_release h (fd_unneeding fd _) (hground.unneeded h) log

/-! ### New connections -/

/-- `create_remote_socket` leaves one descriptor open when it succeeds, and none when it fails. -/
theorem createRemoteSocket_run (hground : Grounded Resource.needs held) (ans : RemoteAnswers)
    (hfresh : ∀ fd ∈ ans.socket, .fd fd ∉ held) (log : Deeds) :
    ((createRemoteSocket ans).2 = none →
      accounts.run ((createRemoteSocket ans).1 ++ log) held = accounts.run log held) ∧
    ∀ fd, (createRemoteSocket ans).2 = some fd → fd ∈ ans.socket ∧
      accounts.run ((createRemoteSocket ans).1 ++ log) held =
        accounts.run log (insert (.fd fd) held) := by
  unfold createRemoteSocket
  cases hsocket : ans.socket with
  | none => exact ⟨fun _ => rfl,fun _ h => (by cases h)⟩
  | some fd =>
    have hfd : Resource.fd fd ∉ held := hfresh fd hsocket
    have hself : Resource.fd fd ∈ insert (.fd fd) held := Finset.mem_insert_self _ _
    have hopened : ∀ more, accounts.run
        ((Deed.acquire (.fd fd) :: (tuneSocketBuffers fd ans.rcvbuf ans.sndbuf).1) ++ more) held =
        accounts.run more (insert (.fd fd) held) := fun more =>
      (open_run hfd _).trans (tuneSocketBuffers_run hself _ _ more)
    have hconnected : ∀ more, accounts.run
        (((Deed.acquire (.fd fd) :: (tuneSocketBuffers fd ans.rcvbuf ans.sndbuf).1) ++
          .use (.fd fd) :: (setNonblocking fd ans.getfl ans.setfl).1) ++ more) held =
        accounts.run more (insert (.fd fd) held) := by
      intro more
      rw [List.append_assoc,hopened,List.cons_append,Inventory.run_use hself,
        setNonblocking_run hself]
    have hclosed := close_run hground hfd log
    dsimp only
    split_ifs
    · refine ⟨fun _ => ?_,fun _ h => (by cases h)⟩
      rw [List.append_assoc,hopened]
      exact hclosed
    · refine ⟨fun _ => ?_,fun _ h => (by cases h)⟩
      rw [List.append_assoc,hopened]
      exact hclosed
    · refine ⟨fun _ => ?_,fun _ h => (by cases h)⟩
      rw [List.append_assoc,hopened]
      exact (Inventory.run_use hself _).trans hclosed
    · refine ⟨fun _ => ?_,fun _ h => (by cases h)⟩
      rw [List.append_assoc,hconnected]
      exact hclosed
    · refine ⟨fun h => (by cases h),fun fd' h => ?_⟩
      obtain rfl := Option.some.inj h
      exact ⟨rfl,hconnected log⟩

theorem interest_union_false (epoll fd : ℕ) : interest epoll fd false ∪ held = held :=
  Finset.empty_union held

theorem interest_union_true (epoll fd : ℕ) :
    interest epoll fd true ∪ held = insert (.watch epoll fd) held :=
  (Finset.insert_eq _ _).symm

theorem mem_interest {epoll fd : ℕ} {added : Bool} {r : Resource}
    (h : r ∈ interest epoll fd added) : r = .watch epoll fd := by
  unfold interest at h
  split_ifs at h
  · exact Finset.mem_singleton.mp h
  · exact absurd h (Finset.notMem_empty r)

/-- A watch needs its descriptor. -/
theorem watch_absent (hground : Grounded Resource.needs held) {fd : ℕ} (hfd : .fd fd ∉ held) :
    .watch epoll fd ∉ held := by
  intro h
  exact hfd (hground _ h (by simp [Resource.needs]))

theorem watch_needs {fd : ℕ} (hepoll : .fd epoll ∈ held) (hfd : .fd fd ∈ held) :
    (Resource.watch epoll fd).needs ⊆ held := by
  intro r hr
  simp only [Resource.needs,Finset.mem_insert,Finset.mem_singleton] at hr
  obtain rfl | rfl := hr
  · exact hepoll
  · exact hfd

theorem interest_ground (hground : Grounded Resource.needs held) {fd : ℕ}
    (hepoll : .fd epoll ∈ held) (hfd : .fd fd ∈ held) (added : Bool) :
    Grounded Resource.needs (interest epoll fd added ∪ held) := by
  cases added with
  | false => rwa [interest_union_false]
  | true =>
    rw [interest_union_true]
    exact hground.insert (watch_needs hepoll hfd)

theorem epollAdd_run {fd : ℕ} (hepoll : .fd epoll ∈ held) (hfd : .fd fd ∈ held)
    (h : .watch epoll fd ∉ held) (ok : Bool) (log : Deeds) :
    accounts.run (epollAdd epoll fd ok ++ log) held =
      accounts.run log (interest epoll fd ok ∪ held) := by
  cases ok with
  | false =>
    rw [interest_union_false]
    exact (Inventory.run_use hepoll _).trans (Inventory.run_use hfd log)
  | true =>
    rw [interest_union_true]
    exact ((Inventory.run_use hepoll _).trans (Inventory.run_use hfd _)).trans
      (Inventory.run_acquire h (watch_needs hepoll hfd) log)

/-- `EPOLL_CTL_DEL` and `close` for one socket of a connection. -/
theorem closeEndpoint_run (hground : Grounded Resource.needs held) {fd : ℕ}
    (hepoll : .fd epoll ∈ held) (hfd : .fd fd ∉ held) (added : Bool) (log : Deeds) :
    accounts.run (epollDel epoll fd added ++ .release (.fd fd) :: log)
      (interest epoll fd added ∪ insert (.fd fd) held) = accounts.run log held := by
  have hself : Resource.fd fd ∈ insert (.fd fd) held := Finset.mem_insert_self _ _
  have hwatch : Resource.watch epoll fd ∉ insert (.fd fd) held := by
    simp [watch_absent hground hfd]
  have hdel : ∀ more, accounts.run (epollDel epoll fd added ++ more)
      (interest epoll fd added ∪ insert (.fd fd) held) =
      accounts.run more (insert (.fd fd) held) := by
    intro more
    unfold epollDel
    rw [List.append_assoc,List.cons_append,List.cons_append,
      Inventory.run_use (Finset.mem_union_right _ (Finset.mem_insert_of_mem hepoll)),
      Inventory.run_use (Finset.mem_union_right _ hself)]
    cases added with
    | false =>
      rw [interest_union_false]
      rfl
    | true =>
      rw [interest_union_true]
      exact Inventory.run_release hwatch (watch_unneeded _ _ _) (fun q _ => watch_unneeded _ _ q) more
  rw [hdel]
  exact close_run hground hfd log

/-- Nothing of a connection is there yet. -/
structure Absent (held : Finset Resource) (id : ℕ) (ends : Endpoints) : Prop where
  client : .fd ends.client ∉ held
  server : .fd ends.server ∉ held
  object : .object id ∉ held
  distinct : ends.client ≠ ends.server

/-- `destroy_connection` gives back all that a connection has, whichever of its sockets the epoll
instance watches. -/
theorem destroyConnection_run (hground : Grounded Resource.needs held) (hepoll : .fd epoll ∈ held)
    (habsent : Absent held id ends) (added : Side → Bool) (log : Deeds) :
    accounts.run (destroyConnection epoll id ends added ++ log) (parts epoll id ends added ∪ held) =
      accounts.run log held := by
  obtain ⟨hclient,hserver,hobject,hdistinct⟩ := habsent
  -- What is left when both sockets are closed, and when the client's is.
  obtain ⟨object,hobj⟩ : ∃ s, s = insert (.object id) held := ⟨_,rfl⟩
  obtain ⟨server,hsrv⟩ : ∃ s, s = interest epoll ends.server (added .server) ∪
      insert (.fd ends.server) object := ⟨_,rfl⟩
  have hall : parts epoll id ends added ∪ held =
      interest epoll ends.client (added .client) ∪ insert (.fd ends.client) server := by
    rw [hsrv,hobj,parts]
    simp only [Finset.insert_union,Finset.union_assoc,Finset.singleton_union]
  have hepollObject : Resource.fd epoll ∈ object := by simp [hobj,hepoll]
  have hgroundObject : Grounded Resource.needs object :=
    hobj ▸ hground.insert (Finset.empty_subset _)
  have hgroundServer : Grounded Resource.needs server := by
    rw [hsrv]
    exact interest_ground (hgroundObject.insert (Finset.empty_subset _))
      (Finset.mem_insert_of_mem hepollObject) (Finset.mem_insert_self _ _) _
  have hserverObject : Resource.fd ends.server ∉ object := by simp [hobj,hserver]
  have hclientServer : Resource.fd ends.client ∉ server := by
    rw [hsrv,hobj]
    simp only [Finset.mem_union,Finset.mem_insert,not_or]
    exact ⟨fun h => (by cases mem_interest h),by simpa using hdistinct,by simp,hclient⟩
  rw [hall]
  unfold destroyConnection
  simp only [List.cons_append,List.append_assoc,List.nil_append]
  rw [Inventory.run_use (by simp [hsrv,hobj]),
    closeEndpoint_run hgroundServer (by simp [hsrv,hepollObject]) hclientServer,hsrv,
    closeEndpoint_run hgroundObject hepollObject hserverObject,hobj,
    Inventory.run_release hobject (object_unneeding _ _) fun q _ => object_unneeded _ q]

/-- Both sockets and the object, in the order in which they come. -/
theorem parts_union (added : Side → Bool) : parts epoll id ends added ∪ held =
    interest epoll ends.server (added .server) ∪ (interest epoll ends.client (added .client) ∪
      insert (.object id) (insert (.fd ends.server) (insert (.fd ends.client) held))) := by
  ext r
  simp only [parts,Finset.mem_union,Finset.mem_insert,Finset.mem_singleton]
  tauto

/-- `create_connection` with both sockets open: it closes both when it fails. -/
theorem createObject_run (hground : Grounded Resource.needs held) (hepoll : .fd epoll ∈ held)
    (habsent : Absent held id ends) (ans : AcceptAnswers) (log : Deeds) :
    ((createObject epoll id ends ans).2 = none →
      accounts.run ((createObject epoll id ends ans).1 ++ log)
        (insert (.fd ends.server) (insert (.fd ends.client) held)) = accounts.run log held) ∧
    ∀ ends', (createObject epoll id ends ans).2 = some ends' → ends' = ends ∧
      accounts.run ((createObject epoll id ends ans).1 ++ log)
        (insert (.fd ends.server) (insert (.fd ends.client) held)) =
          accounts.run log (parts epoll id ends (fun _ => true) ∪ held) := by
  have habsent' := habsent
  obtain ⟨hclient,hserver,hobject,hdistinct⟩ := habsent
  obtain ⟨both,hboth⟩ : ∃ s, s = insert (.fd ends.server) (insert (.fd ends.client) held) := ⟨_,rfl⟩
  have hclientBoth : Resource.fd ends.client ∈ both := by simp [hboth]
  have hserverBoth : Resource.fd ends.server ∈ both := by simp [hboth]
  have hepollBoth : Resource.fd epoll ∈ both := by simp [hboth,hepoll]
  have hobjectBoth : Resource.object id ∉ both := by simp [hboth,hobject]
  have hwatch : ∀ fd, Resource.fd fd ∉ held → Resource.watch epoll fd ∉ insert (.object id) both := by
    intro fd hfd
    simp [hboth,watch_absent hground hfd]
  have hclose : ∀ more, accounts.run
      ([.release (.fd ends.server),.release (.fd ends.client)] ++ more) both =
      accounts.run more held := by
    intro more
    rw [hboth,List.cons_append,close_run (hground.insert (Finset.empty_subset _))
      (by simpa [hserver] using hdistinct.symm)]
    exact close_run hground hclient more
  have htuned := tuneSocketBuffers_run hclientBoth ans.rcvbuf ans.sndbuf
  have hnonblocking := setNonblocking_run hclientBoth ans.getfl ans.setfl
  have hallocated : ∀ more, accounts.run
      ((tuneSocketBuffers ends.client ans.rcvbuf ans.sndbuf).1 ++
        (setNonblocking ends.client ans.getfl ans.setfl).1 ++ .acquire (.object id) ::
        epollAdd epoll ends.client ans.addClient ++ more) both =
      accounts.run more (interest epoll ends.client ans.addClient ∪
        insert (.object id) both) := by
    intro more
    rw [List.append_assoc,List.append_assoc,htuned,hnonblocking,List.cons_append,
      Inventory.run_acquire hobjectBoth (Finset.empty_subset _)]
    exact epollAdd_run (Finset.mem_insert_of_mem hepollBoth) (Finset.mem_insert_of_mem hclientBoth)
      (hwatch _ hclient) _ more
  have hadded : ∀ more, ans.addClient = true → accounts.run
      ((tuneSocketBuffers ends.client ans.rcvbuf ans.sndbuf).1 ++
        (setNonblocking ends.client ans.getfl ans.setfl).1 ++ .acquire (.object id) ::
        epollAdd epoll ends.client ans.addClient ++ epollAdd epoll ends.server ans.addServer ++
        more) both =
      accounts.run more (interest epoll ends.server ans.addServer ∪
        (interest epoll ends.client true ∪ insert (.object id) both)) := by
    intro more hok
    rw [List.append_assoc _ _ more,hallocated,hok]
    refine epollAdd_run ?_ ?_ ?_ _ more
    · simp [hepollBoth]
    · simp [hserverBoth]
    · rw [Finset.mem_union,not_or]
      refine ⟨fun h => ?_,hwatch _ hserver⟩
      simpa [hdistinct.symm] using mem_interest h
  rw [← hboth]
  unfold createObject
  dsimp only
  split_ifs with h₁ h₂ h₃ h₄ h₅
  · refine ⟨fun _ => ?_,fun _ h => (by cases h)⟩
    rw [List.append_assoc,htuned,hclose]
  · refine ⟨fun _ => ?_,fun _ h => (by cases h)⟩
    rw [List.append_assoc,List.append_assoc,htuned,hnonblocking,hclose]
  · refine ⟨fun _ => ?_,fun _ h => (by cases h)⟩
    rw [List.append_assoc,List.append_assoc,htuned,hnonblocking,hclose]
  · refine ⟨fun _ => ?_,fun _ h => (by cases h)⟩
    have hparts := @parts_union held epoll id ends fun _ => false
    have hadd : ans.addClient = false := by simpa using h₄
    rw [interest_union_false,← hboth] at hparts
    rw [List.append_assoc,hallocated,hadd,← hparts,
      destroyConnection_run hground hepoll habsent' _ log]
  · refine ⟨fun _ => ?_,fun _ h => (by cases h)⟩
    have hparts := @parts_union held epoll id ends (· = .client)
    have hadd : ans.addServer = false := by simpa using h₅
    rw [← hboth] at hparts
    rw [List.append_assoc,hadded _ (by simpa using h₄),hadd,
      ← destroyConnection_run hground hepoll habsent' (· = .client) log,hparts]
    rfl
  · refine ⟨fun h => (by cases h),fun ends' h => ?_⟩
    obtain rfl := Option.some.inj h
    refine ⟨rfl,?_⟩
    rw [hadded _ (by simpa using h₄),parts_union,← hboth]
    simp only [Bool.not_eq_true',Bool.not_eq_false] at h₅
    rw [h₅]

/-- `create_connection` for a socket that has just been accepted: either the socket is closed
again, and nothing else is left, or there is a connection. -/
theorem createDeeds_run (hground : Grounded Resource.needs held) (hepoll : .fd epoll ∈ held)
    (ans : AcceptAnswers) (hobject : .object id ∉ held) (hclient : .fd ans.clientFd ∉ held)
    (hremote : ∀ fd ∈ ans.remote.socket, fd ≠ ans.clientFd ∧ .fd fd ∉ held) :
    ((createDeeds epoll id ans).2 = none → accounts.run (createDeeds epoll id ans).1
      (insert (.fd ans.clientFd) held) = some held) ∧
    ∀ ends, (createDeeds epoll id ans).2 = some ends → Absent held id ends ∧
      accounts.run (createDeeds epoll id ans).1 (insert (.fd ans.clientFd) held) =
        some (parts epoll id ends (fun _ => true) ∪ held) := by
  have hgroundClient : Grounded Resource.needs (insert (.fd ans.clientFd) held) :=
    hground.insert (Finset.empty_subset _)
  have hfresh : ∀ fd ∈ ans.remote.socket, Resource.fd fd ∉ insert (.fd ans.clientFd) held := by
    intro fd hfd
    obtain ⟨hne,hnot⟩ := hremote fd hfd
    simp [hne,hnot]
  have hsocket := createRemoteSocket_run hgroundClient ans.remote hfresh
  unfold createDeeds
  dsimp only
  cases hremoteFd : (createRemoteSocket ans.remote).2 with
  | none =>
    refine ⟨fun _ => ?_,fun _ h => (by cases h)⟩
    exact ((hsocket _).1 hremoteFd).trans (close_run hground hclient [])
  | some serverFd =>
    obtain ⟨hmem,-⟩ := (hsocket []).2 serverFd hremoteFd
    obtain ⟨hne,hserver⟩ := hremote serverFd hmem
    have habsent : Absent held id ⟨ans.clientFd,serverFd⟩ := ⟨hclient,hserver,hobject,hne.symm⟩
    obtain ⟨hnone,hsome⟩ := createObject_run hground hepoll habsent ans []
    rw [List.append_nil] at hnone hsome
    have hrun := ((hsocket (createObject epoll id ⟨ans.clientFd,serverFd⟩ ans).1).2 serverFd
      hremoteFd).2
    refine ⟨fun h => hrun.trans (hnone h),fun ends h => ?_⟩
    obtain ⟨rfl,hends⟩ := hsome ends h
    exact ⟨habsent,hrun.trans hends⟩

/-- The same connections are made as without descriptors. -/
theorem createDeeds_isSome (epoll id : ℕ) (ans : AcceptAnswers) :
    (createDeeds epoll id ans).2.isSome = (createConnection ans.create).isSome := by
  unfold createDeeds createConnection AcceptAnswers.create
  dsimp only
  cases (createRemoteSocket ans.remote).2 with
  | none => rfl
  | some serverFd =>
    obtain ⟨clientFd,remote,rcvbuf,sndbuf,getfl,setfl,allocated,addClient,addServer⟩ := ans
    cases rcvbuf <;> cases sndbuf <;> cases getfl <;> cases setfl <;> cases allocated <;>
      cases addClient <;> cases addServer <;> rfl

/-! ### `main` up to its loop -/

theorem empty_ground : Grounded Resource.needs ∅ := fun q hq => absurd hq (Finset.notMem_empty q)

/-- The listener alone is closed. -/
theorem closeListener_run (fd : ℕ) : accounts.run [.release (.fd fd)] {.fd fd} = some ∅ :=
  close_run empty_ground (Finset.notMem_empty _) []

theorem startEpoll_run {fd : ℕ} {opened : Deeds} (ans : StartAnswers)
    (hopened : ∀ log, accounts.run (opened ++ log) ∅ = accounts.run log {.fd fd})
    (hfresh : ans.epoll ≠ some fd) :
    ((startEpoll fd opened ans).2 = none →
      accounts.run (startEpoll fd opened ans).1 ∅ = some ∅) ∧
    ∀ listenFd epollFd, (startEpoll fd opened ans).2 = some (listenFd,epollFd) →
      listenFd ≠ epollFd ∧
      accounts.run (startEpoll fd opened ans).1 ∅ = some (loopFds listenFd epollFd) := by
  have hself : Resource.fd fd ∈ ({.fd fd} : Finset Resource) := Finset.mem_singleton_self _
  have hbound : ∀ log, accounts.run (opened ++ [.use (.fd fd)] ++ log) ∅ =
      accounts.run log {.fd fd} := by
    intro log
    rw [List.append_assoc,hopened]
    exact Inventory.run_use hself log
  have hlistening : ∀ log, accounts.run (opened ++ [.use (.fd fd)] ++ [.use (.fd fd)] ++ log) ∅ =
      accounts.run log {.fd fd} := by
    intro log
    rw [List.append_assoc,hbound]
    exact Inventory.run_use hself log
  have hclosed := closeListener_run fd
  unfold startEpoll
  cases hepoll : ans.epoll with
  | none =>
    dsimp only
    split_ifs
    · exact ⟨fun _ => (hbound _).trans hclosed,fun _ _ h => (by cases h)⟩
    · exact ⟨fun _ => (hlistening _).trans hclosed,fun _ _ h => (by cases h)⟩
    · exact ⟨fun _ => (hlistening _).trans hclosed,fun _ _ h => (by cases h)⟩
  | some epoll =>
    have hne : epoll ≠ fd := by
      rintro rfl
      exact hfresh hepoll
    have hepollFd : Resource.fd epoll ∉ ({.fd fd} : Finset Resource) := by simpa using hne
    have hground : Grounded Resource.needs {.fd fd} := empty_ground.insert (Finset.empty_subset _)
    have hadded : ∀ log, accounts.run (opened ++ [.use (.fd fd)] ++ [.use (.fd fd)] ++
        .acquire (.fd epoll) :: epollAdd epoll fd ans.add ++ log) ∅ =
        accounts.run log (interest epoll fd ans.add ∪ insert (.fd epoll) {.fd fd}) := by
      intro log
      rw [List.append_assoc,hlistening,List.cons_append,open_run hepollFd]
      exact epollAdd_run (Finset.mem_insert_self _ _) (Finset.mem_insert_of_mem hself)
        (by simp) _ log
    dsimp only
    split_ifs with hbind hlisten hadd
    · exact ⟨fun _ => (hbound _).trans hclosed,fun _ _ h => (by cases h)⟩
    · exact ⟨fun _ => (hlistening _).trans hclosed,fun _ _ h => (by cases h)⟩
    · refine ⟨fun _ => ?_,fun _ _ h => (by cases h)⟩
      have hfalse : ans.add = false := by simpa using hadd
      rw [hadded,hfalse,interest_union_false,close_run hground hepollFd]
      exact hclosed
    · refine ⟨fun h => (by cases h),fun listenFd epollFd h => ?_⟩
      obtain ⟨rfl,rfl⟩ := Prod.mk.inj (Option.some.inj h)
      have htrue : ans.add = true := by simpa using hadd
      have hrun := hadded []
      rw [List.append_nil] at hrun
      refine ⟨hne.symm,?_⟩
      rw [hrun,htrue,interest_union_true,Machine.run_nil]
      congr 1
      ext r
      simp only [loopFds,Finset.mem_insert,Finset.mem_singleton]
      tauto

/-- `main` returns with nothing open, or comes to its loop with its two descriptors. -/
theorem start_run (ans : StartAnswers) (hfresh : ans.epoll = none ∨ ans.epoll ≠ ans.socket) :
    ((start ans).2 = none → accounts.run (start ans).1 ∅ = some ∅) ∧
    ∀ listenFd epollFd, (start ans).2 = some (listenFd,epollFd) → listenFd ≠ epollFd ∧
      accounts.run (start ans).1 ∅ = some (loopFds listenFd epollFd) := by
  unfold start
  cases hsocket : ans.socket with
  | none => exact ⟨fun _ => rfl,fun _ _ h => (by cases h)⟩
  | some fd =>
    have hself : Resource.fd fd ∈ ({.fd fd} : Finset Resource) := Finset.mem_singleton_self _
    have hopened : ∀ log, accounts.run ([.acquire (.fd fd),.use (.fd fd)] ++ log) ∅ =
        accounts.run log {.fd fd} := fun log =>
      (open_run (Finset.notMem_empty _) _).trans (Inventory.run_use hself log)
    have hnonblocking : ∀ log, accounts.run ([.acquire (.fd fd),.use (.fd fd)] ++
        (setNonblocking fd ans.getfl ans.setfl).1 ++ log) ∅ = accounts.run log {.fd fd} := by
      intro log
      rw [List.append_assoc,hopened,setNonblocking_run hself]
    have hepoll : ans.epoll ≠ some fd := by
      obtain h | h := hfresh
      · simp [h]
      · rwa [hsocket] at h
    dsimp only
    split_ifs
    · exact ⟨fun _ => (hopened _).trans (closeListener_run fd),fun _ _ h => (by cases h)⟩
    · exact ⟨fun _ => (hnonblocking _).trans (closeListener_run fd),fun _ _ h => (by cases h)⟩
    · exact startEpoll_run ans hnonblocking hepoll

/-! ### Events -/

/-- The calls that an event makes: none adds an endpoint, and none destroys. -/
def Call.Routine : Call → Prop
  | .epollCtl .add _ _ _ | .destroy => False
  | _ => True

theorem routine_append {l m : List Call} (hl : ∀ c ∈ l, c.Routine) (hm : ∀ c ∈ m, c.Routine) :
    ∀ c ∈ l ++ m, c.Routine := fun c hc => (List.mem_append.mp hc).elim (hl c) (hm c)

theorem receiveIntoBuffer_routine (fd : Side) (buf : IoBuffer) (a : RecvResult) :
    ∀ c ∈ (receiveIntoBuffer fd buf a).2.2, c.Routine := by
  rw [receiveIntoBuffer_calls]
  split_ifs <;> simp [Call.Routine]

theorem flushBuffer_routine (fd : Side) (buf : IoBuffer) (a : SendResult) :
    ∀ c ∈ (flushBuffer fd buf a).2.2, c.Routine := by
  rw [flushBuffer_calls]
  split_ifs <;> simp [Call.Routine]

theorem processEvent_routine (d : Side) (events : Events) (ans : Answers) :
    Stage.Keeps (fun _ log => ∀ c ∈ log, c.Routine) (processEvent d events ans) := by
  have hmod : ∀ endpoint events ok,
      Stage.Keeps (fun _ log => ∀ c ∈ log, c.Routine) (epollModify endpoint events ok) := by
    intro endpoint events ok conn log h
    exact routine_append h (by simp [epollModify,Call.Routine])
  have hupdate : Stage.Keeps (fun _ log => ∀ c ∈ log, c.Routine) (updateConnectionEvents ans) :=
    fun conn => Stage.Keeps.andThen (hmod .client (wantedEvents conn .client) ans.modClient)
      (hmod .server (wantedEvents conn .server) ans.modServer) conn
  have hshutdown : Stage.Keeps (fun _ log => ∀ c ∈ log, c.Routine) (shutdownStage d) := by
    intro conn log h
    refine routine_append h ?_
    unfold shutdownStage
    split_ifs <;> simp [Call.Routine]
  have hhangup : Stage.Keeps (fun _ log => ∀ c ∈ log, c.Routine) (hangupStage d events) := by
    intro conn log h
    refine routine_append h ?_
    unfold hangupStage
    split_ifs <;> simp
  have hflush : Stage.Keeps (fun _ log => ∀ c ∈ log, c.Routine)
      (flushStage d events ans.send) := by
    intro conn log h
    refine routine_append h ?_
    unfold flushStage
    split_ifs
    · exact flushBuffer_routine _ _ _
    · simp
  have hreceive : Stage.Keeps (fun _ log => ∀ c ∈ log, c.Routine)
      (receiveStage d events ans.recv) := by
    intro conn log h
    refine routine_append h ?_
    have hcalls := receiveIntoBuffer_routine d (conn.readBuf d) ans.recv
    unfold receiveStage
    dsimp only
    split_ifs
    · exact hcalls
    · exact hcalls
    · exact hcalls
    · simp
  exact hreceive.andThen (hflush.andThen (hhangup.andThen (hshutdown.andThen hupdate)))

/-- What is held of a live connection. -/
theorem parts_mem (d : Side) : .object id ∈ parts epoll id ends (fun _ => true) ∧
    .fd (ends.fd d) ∈ parts epoll id ends (fun _ => true) ∧
    .watch epoll (ends.fd d) ∈ parts epoll id ends (fun _ => true) := by
  cases d <;> simp [parts,interest,Endpoints.fd]

/-- The calls of an event only use what its connection has, and the epoll instance. -/
theorem callDeeds_uses (hepoll : .fd epoll ∈ held) (hparts : parts epoll id ends (fun _ => true) ⊆ held)
    {calls : List Call} (hcalls : ∀ c ∈ calls, c.Routine) :
    OnlyUses (· ∈ held) (calls.flatMap (callDeeds epoll ends)) := by
  have hfd : ∀ d, .fd (ends.fd d) ∈ held := fun d => hparts (parts_mem d).2.1
  have hwatch : ∀ d, .watch epoll (ends.fd d) ∈ held := fun d => hparts (parts_mem d).2.2
  intro deed hdeed
  obtain ⟨c,hc,hdeed⟩ := List.mem_flatMap.mp hdeed
  have hroutine := hcalls c hc
  cases c with
  | recv d offset length answer => exact OnlyUses.one (hfd d) deed hdeed
  | send d bytes answer => exact OnlyUses.one (hfd d) deed hdeed
  | shutdown d => exact OnlyUses.one (hfd d) deed hdeed
  | epollCtl op d events ok =>
    cases op with
    | add => exact False.elim hroutine
    | mod => exact OnlyUses.append (.one hepoll) (.one (hwatch d)) deed hdeed
  | destroy => exact False.elim hroutine

/-! ### Steps of the process -/

variable {p p' : Process}

/-- What is open besides connection `id`. -/
def Process.others (p : Process) (id : ℕ) : Finset Resource :=
  loopFds p.listenFd p.epollFd ∪ (p.live.erase id).biUnion (p.connection true)

/-- Every live connection has two descriptors and an object of its own. -/
structure ProcessInv (p : Process) : Prop where
  relay : RelayReachable p.heap
  run : accounts.run p.log ∅ = some p.holding
  absent : ∀ id ∈ p.live, Absent (p.others id) id (p.ends id)
  begun : p.phase = .begun → p.heap = Heap.empty ∧ p.log = []
  apart : p.phase = .looping → p.listenFd ≠ p.epollFd

theorem Absent.mono {less : Finset Resource} (h : Absent held id ends) (hle : less ⊆ held) :
    Absent less id ends :=
  ⟨fun hm => h.client (hle hm),fun hm => h.server (hle hm),fun hm => h.object (hle hm),h.distinct⟩

theorem mem_live : id ∈ p.live ↔ id < p.heap.next ∧ (p.heap.conns id).isSome = true := by
  simp [Process.live]

theorem parts_ground {added : Side → Bool} {q : Resource} (hq : q ∈ parts epoll id ends added) :
    q.needs ⊆ insert (.fd epoll) (parts epoll id ends added) := by
  simp only [parts,Finset.mem_union,Finset.mem_insert,Finset.mem_singleton] at hq
  obtain h | rfl | h | rfl | rfl := hq
  · rw [mem_interest h]
    exact watch_needs (Finset.mem_insert_self _ _) (by simp [parts])
  · exact Finset.empty_subset _
  · rw [mem_interest h]
    exact watch_needs (Finset.mem_insert_self _ _) (by simp [parts])
  · exact Finset.empty_subset _
  · exact Finset.empty_subset _

theorem loopFds_epoll (listenFd epollFd : ℕ) : .fd epollFd ∈ loopFds listenFd epollFd := by
  simp [loopFds]

theorem loopFds_ground {listenFd epollFd : ℕ} {q : Resource} (hq : q ∈ loopFds listenFd epollFd) :
    q.needs ⊆ loopFds listenFd epollFd := by
  have hlisten : Resource.fd listenFd ∈ loopFds listenFd epollFd := by simp [loopFds]
  simp only [loopFds,Finset.mem_insert,Finset.mem_singleton] at hq
  obtain rfl | rfl | rfl := hq
  · exact Finset.empty_subset _
  · exact Finset.empty_subset _
  · exact watch_needs (loopFds_epoll _ _) hlisten

/-- Descriptors of the loop and any connections. -/
theorem ground_of_connections (p : Process) (ids : Finset ℕ) (watched : ℕ → Bool) :
    Grounded Resource.needs (loopFds p.listenFd p.epollFd ∪
      ids.biUnion fun id => p.connection (watched id) id) := by
  intro q hq
  obtain hq | hq := Finset.mem_union.mp hq
  · exact (loopFds_ground hq).trans Finset.subset_union_left
  · obtain ⟨id,hid,hq⟩ := Finset.mem_biUnion.mp hq
    refine (parts_ground hq).trans (Finset.insert_subset ?_ ?_)
    · exact Finset.mem_union_left _ (loopFds_epoll _ _)
    · exact (Finset.subset_biUnion_of_mem (fun id => p.connection (watched id) id) hid).trans
        Finset.subset_union_right

theorem others_epoll (p : Process) (id : ℕ) : .fd p.epollFd ∈ p.others id :=
  Finset.mem_union_left _ (loopFds_epoll _ _)

theorem others_ground (p : Process) (id : ℕ) : Grounded Resource.needs (p.others id) :=
  ground_of_connections p _ fun _ => true

/-- A connection and the rest. -/
theorem connection_others (p : Process) {id : ℕ} (hid : id ∈ p.live) :
    loopFds p.listenFd p.epollFd ∪ p.live.biUnion (p.connection true) =
      p.connection true id ∪ p.others id := by
  have hinsert : p.live.biUnion (p.connection true) =
      p.connection true id ∪ (p.live.erase id).biUnion (p.connection true) := by
    rw [← Finset.biUnion_insert,Finset.insert_erase hid]
  rw [hinsert,Process.others,Finset.union_left_comm]

theorem start_step (hi : ProcessInv p) {ans : StartAnswers}
    (h : p.step (.start ans) = some p') : ProcessInv p' := by
  simp only [Process.step] at h
  by_cases hgo : p.phase = .begun ∧ (ans.epoll = none ∨ ans.epoll ≠ ans.socket)
  · rw [if_pos hgo] at h
    obtain ⟨hphase,hfresh⟩ := hgo
    obtain ⟨hheap,hlog⟩ := hi.begun hphase
    have hnone : p.live = ∅ := by
      rw [Process.live,hheap]
      rfl
    have hrun := start_run ans hfresh
    generalize start ans = outcome at h hrun
    obtain ⟨deeds,got⟩ := outcome
    cases got with
    | none =>
      obtain rfl := Option.some.inj h
      refine ⟨hi.relay,?_,?_,fun h => (by contradiction),fun h => (by contradiction)⟩
      · change accounts.run (p.log ++ deeds) ∅ = some (p.live.biUnion _)
        rw [hlog,hnone]
        exact hrun.1 rfl
      · change ∀ id ∈ p.live,_
        simp [hnone]
    | some fds =>
      obtain ⟨listenFd,epollFd⟩ := fds
      obtain rfl := Option.some.inj h
      obtain ⟨hne,hrun⟩ := hrun.2 listenFd epollFd rfl
      refine ⟨hi.relay,?_,?_,fun h => (by contradiction),fun _ => hne⟩
      · change accounts.run (p.log ++ deeds) ∅ =
          some (loopFds listenFd epollFd ∪ p.live.biUnion _)
        rw [hlog,hnone,Finset.biUnion_empty,Finset.union_empty]
        exact hrun
      · change ∀ id ∈ p.live,_
        simp [hnone]
  · rw [if_neg hgo] at h
    contradiction

/-- Deeds that leave open what is open, and change nothing else. -/
theorem log_step (hi : ProcessInv p) (hphase : p.phase = .looping) {log : Deeds}
    (hrun : accounts.run log ∅ = some p.holding) : ProcessInv { p with log } :=
  ⟨hi.relay,hrun,hi.absent,fun h => absurd (hphase.symm.trans h) (by decide),hi.apart⟩

theorem uses_step (hi : ProcessInv p) (hphase : p.phase = .looping) {deeds : Deeds}
    (huses : OnlyUses (· ∈ p.holding) deeds) : ProcessInv { p with log := p.log ++ deeds } := by
  refine log_step hi hphase ?_
  rw [Machine.run_append,hi.run,Option.bind_some,huses.run fun _ hr => hr]

theorem holding_looping (h : p.phase = .looping) :
    p.holding = loopFds p.listenFd p.epollFd ∪ p.live.biUnion (p.connection true) := by
  rw [Process.holding,h]

theorem loopFds_holding (h : p.phase = .looping) : loopFds p.listenFd p.epollFd ⊆ p.holding := by
  rw [holding_looping h]
  exact Finset.subset_union_left

/-- A batch of one entry. -/
theorem relay_entry {w w' : Heap} (h : RelayReachable w) {e : Entry}
    (hlive : ∀ t ∈ e.target, (w.conns t.1).isSome = true) (hfit : e.Fit w)
    (he : handleEntry w e = some w') : RelayReachable w' := by
  have hbatch : handleBatch w [e] = some w' := by simp [handleBatch,he]
  refine .batch h ?_ hbatch
  refine ⟨?_,?_,hfit,fun _ _ => trivial⟩
  · cases ht : e.target <;> simp [ht]
  · intro t ht
    obtain ⟨e',he',ht⟩ := List.mem_filterMap.mp ht
    rw [List.mem_singleton.mp he'] at ht
    exact hlive t ht

theorem relay_accept {w : Heap} (h : RelayReachable w) (ans : CreateAnswers) :
    RelayReachable (w.create ans) :=
  relay_entry (e := .listener [ans]) h (fun _ ht => by cases ht) trivial rfl

/-- The descriptors and the object among the parts of a connection. -/
theorem parts_fd {added : Side → Bool} {n : ℕ} (h : .fd n ∈ parts epoll id ends added) :
    n = ends.client ∨ n = ends.server := by
  simp only [parts,Finset.mem_union,Finset.mem_insert,Finset.mem_singleton] at h
  obtain h | h | h | h | h := h
  · cases mem_interest h
  · exact .inl (Resource.fd.inj h)
  · cases mem_interest h
  · exact .inr (Resource.fd.inj h)
  · cases h

theorem parts_object {added : Side → Bool} {n : ℕ} (h : .object n ∈ parts epoll id ends added) :
    n = id := by
  simp only [parts,Finset.mem_union,Finset.mem_insert,Finset.mem_singleton] at h
  obtain h | h | h | h | h := h
  · cases mem_interest h
  · cases h
  · cases mem_interest h
  · cases h
  · exact Resource.object.inj h

/-- A new connection stands beside one that is open already. -/
theorem Absent.beside (h : Absent held id ends) {all : Finset Resource} {id' : ℕ}
    {ends' : Endpoints} (hall : parts epoll id ends (fun _ => true) ⊆ all)
    (h' : Absent all id' ends') (added : Side → Bool) :
    Absent (parts epoll id' ends' added ∪ held) id ends := by
  have hfd : ∀ n, .fd n ∈ all → .fd n ∉ held → .fd n ∉ parts epoll id' ends' added ∪ held := by
    intro n hn hnot hmem
    obtain hmem | hmem := Finset.mem_union.mp hmem
    · obtain rfl | rfl := parts_fd hmem
      · exact h'.client hn
      · exact h'.server hn
    · exact hnot hmem
  refine ⟨hfd _ (hall (parts_mem .client).2.1) h.client,hfd _ (hall (parts_mem .server).2.1) h.server,
    fun hmem => ?_,h.distinct⟩
  obtain hmem | hmem := Finset.mem_union.mp hmem
  · obtain rfl := parts_object hmem
    exact h'.object (hall (parts_mem .client).1)
  · exact h.object hmem

theorem object_live (h : p.phase = .looping) (hmem : .object id ∈ p.holding) : id ∈ p.live := by
  rw [holding_looping h] at hmem
  obtain hmem | hmem := Finset.mem_union.mp hmem
  · simp [loopFds] at hmem
  · obtain ⟨id',hid,hmem⟩ := Finset.mem_biUnion.mp hmem
    rwa [parts_object hmem]

theorem connection_holding (h : p.phase = .looping) (hid : id ∈ p.live) :
    p.connection true id ⊆ p.holding := by
  rw [holding_looping h,connection_others p hid]
  exact Finset.subset_union_left

/-- A process that looks the same on connection `id`. -/
theorem connection_congr (hepoll : p'.epollFd = p.epollFd) (hends : p'.ends id = p.ends id)
    (watched : Bool) : p'.connection watched id = p.connection watched id := by
  rw [Process.connection,Process.connection,hepoll,hends]

/-- One more connection. -/
theorem added_step (hi : ProcessInv p) (hphase : p.phase = .looping) {ends : Endpoints}
    (habsent : Absent p.holding p.heap.next ends) {heap : Heap} {log : Deeds}
    (hrelay : RelayReachable heap) (hnext : heap.next = p.heap.next+1)
    (hnew : (heap.conns p.heap.next).isSome = true)
    (hold : ∀ id < p.heap.next, heap.conns id = p.heap.conns id)
    (hrun : accounts.run log ∅ =
      some (parts p.epollFd p.heap.next ends (fun _ => true) ∪ p.holding)) :
    ProcessInv { p with heap, ends := Function.update p.ends p.heap.next ends, log } := by
  obtain ⟨q,hq⟩ : ∃ q, q = { p with
    heap, ends := Function.update p.ends p.heap.next ends, log } := ⟨_,rfl⟩
  rw [← hq]
  have hphase' : q.phase = .looping := by rw [hq]; exact hphase
  have hlive : q.live = insert p.heap.next p.live := by
    ext id
    have hnext' : q.heap.next = p.heap.next+1 := by rw [hq]; exact hnext
    have hconns : q.heap.conns = heap.conns := by rw [hq]
    rw [mem_live,Finset.mem_insert,mem_live,hnext',hconns]
    obtain hlt | rfl | hlt := lt_trichotomy id p.heap.next
    · rw [hold id hlt]
      simp [hlt,hlt.ne,Nat.lt_succ_of_lt hlt]
    · simp [hnew]
    · simp only [Nat.not_lt.mpr (Nat.succ_le_of_lt hlt),false_and,hlt.ne',false_or,
        Nat.not_lt.mpr hlt.le]
  have hnotLive : p.heap.next ∉ p.live := fun h => absurd (mem_live.mp h).1 (lt_irrefl _)
  have hepoll : q.epollFd = p.epollFd := by rw [hq]
  have hnewEnds : q.ends p.heap.next = ends := by
    rw [hq]
    exact Function.update_self _ _ _
  have hself : q.connection true p.heap.next = parts p.epollFd p.heap.next ends fun _ => true := by
    rw [Process.connection,hnewEnds,hepoll]
  have hends : ∀ id ∈ p.live, q.ends id = p.ends id := by
    intro id hid
    have hne : id ≠ p.heap.next := by
      rintro rfl
      exact hnotLive hid
    rw [hq]
    exact Function.update_of_ne hne _ _
  have hlisten : q.listenFd = p.listenFd := by rw [hq]
  have hconnection : ∀ id ∈ p.live, q.connection true id = p.connection true id :=
    fun id hid => connection_congr hepoll (hends id hid) true
  have hbiUnion : ∀ ids ⊆ p.live, ids.biUnion (q.connection true) =
      ids.biUnion (p.connection true) := by
    intro ids hids
    exact Finset.biUnion_congr rfl fun id hid => hconnection id (hids hid)
  refine ⟨by rw [hq]; exact hrelay,?_,?_,fun h => absurd (hphase'.symm.trans h) (by decide),
    fun _ => by rw [hlisten,hepoll]; exact hi.apart hphase⟩
  · have hlog : q.log = log := by rw [hq]
    rw [hlog,hrun,holding_looping hphase',holding_looping hphase,hlive,Finset.biUnion_insert,hself,
      hbiUnion _ (Finset.Subset.refl _),hepoll,hlisten,Finset.union_left_comm]
  · intro id hid
    rw [hlive] at hid
    obtain rfl | hid := Finset.mem_insert.mp hid
    · have hothers : q.others p.heap.next = p.holding := by
        rw [Process.others,hlive,Finset.erase_insert hnotLive,hbiUnion _ (Finset.Subset.refl _),
          holding_looping hphase,hepoll,hlisten]
      rw [hothers,hnewEnds]
      exact habsent
    · have hne : p.heap.next ≠ id := fun h => hnotLive (h ▸ hid)
      have hothers : q.others id =
          parts p.epollFd p.heap.next ends (fun _ => true) ∪ p.others id := by
        rw [Process.others,hlive,Finset.erase_insert_of_ne hne,Finset.biUnion_insert,hself,
          hbiUnion _ (Finset.erase_subset _ _),hepoll,hlisten,Process.others,
          Finset.union_left_comm]
      rw [hothers,hends id hid]
      exact (hi.absent id hid).beside (connection_holding hphase hid) habsent _

theorem accept_step (hi : ProcessInv p) {ans : AcceptAnswers}
    (h : p.step (.accept ans) = some p') : ProcessInv p' := by
  obtain ⟨⟨hphase,hclientClosed,hremoteClosed⟩,rfl⟩ := guarded_eq_some.mp h
  have hbooks := Inventory.books hi.run
  have hclient : Resource.fd ans.clientFd ∉ p.holding := hbooks.not_held hclientClosed
  have hobject : Resource.object p.heap.next ∉ p.holding := by
    intro hmem
    exact absurd (mem_live.mp (object_live hphase hmem)).1 (lt_irrefl _)
  have hremote : ∀ fd ∈ ans.remote.socket, fd ≠ ans.clientFd ∧ .fd fd ∉ p.holding := by
    intro fd hfd
    obtain ⟨hne,hclosed⟩ := hremoteClosed fd hfd
    exact ⟨hne,hbooks.not_held hclosed⟩
  have hlisten : Resource.fd p.listenFd ∈ p.holding := loopFds_holding hphase (by simp [loopFds])
  have hepoll : Resource.fd p.epollFd ∈ p.holding := loopFds_holding hphase (by simp [loopFds])
  obtain ⟨hnone,hsome⟩ := createDeeds_run (Inventory.grounded hi.run) hepoll ans hobject hclient
    hremote
  have hrelay := relay_accept hi.relay ans.create
  have hcreated := createDeeds_isSome p.epollFd p.heap.next ans
  have hrun : ∀ later, accounts.run (createDeeds p.epollFd p.heap.next ans).1
      (insert (.fd ans.clientFd) p.holding) = some later →
      accounts.run (p.log ++ [.use (.fd p.listenFd),.acquire (.fd ans.clientFd)] ++
        (createDeeds p.epollFd p.heap.next ans).1) ∅ = some later := by
    intro later hlater
    rw [List.append_assoc,Machine.run_append,hi.run,Option.bind_some,List.cons_append,
      Inventory.run_use hlisten,List.singleton_append,open_run hclient,hlater]
  cases hends : (createDeeds p.epollFd p.heap.next ans).2 with
  | none =>
    have hnull : createConnection ans.create = none := by
      rw [hends] at hcreated
      exact Option.not_isSome_iff_eq_none.mp (by simp [← hcreated])
    have hsame : p.heap.create ans.create = p.heap := by rw [Heap.create,hnull]
    simp only [hsame]
    exact log_step hi hphase (hrun _ (hnone hends))
  | some ends =>
    obtain ⟨habsent,hadded⟩ := hsome ends hends
    obtain ⟨s,hs⟩ : ∃ s, createConnection ans.create = some s := by
      rw [hends] at hcreated
      exact Option.isSome_iff_exists.mp hcreated.symm
    refine added_step hi hphase habsent hrelay ?_ ?_
      (fun id hid => (Heap.create_conns ans.create hid).1) (hrun _ hadded)
    · rw [Heap.create,hs]
    · rw [Heap.create,hs]
      exact congrArg Option.isSome (Heap.set_conns_self p.heap _ _)

/-- A connection that stays. -/
theorem kept_step (hi : ProcessInv p) (hphase : p.phase = .looping) {heap : Heap} {log : Deeds}
    (hrelay : RelayReachable heap) (hlive : { p with heap, log }.live = p.live)
    (hrun : accounts.run log ∅ = some p.holding) : ProcessInv { p with heap, log } := by
  obtain ⟨q,hq⟩ : ∃ q, q = { p with heap, log } := ⟨_,rfl⟩
  have hphase' : q.phase = .looping := by rw [hq]; exact hphase
  have hconnection : q.connection = p.connection := by rw [hq]; rfl
  have hfds : loopFds q.listenFd q.epollFd = loopFds p.listenFd p.epollFd := by rw [hq]
  rw [← hq] at hlive ⊢
  refine ⟨by rw [hq]; exact hrelay,?_,fun id hid => ?_,
    fun h => absurd (hphase'.symm.trans h) (by decide),fun _ => by rw [hq]; exact hi.apart hphase⟩
  · have hlog : q.log = log := by rw [hq]
    rw [hlog,hrun,holding_looping hphase,holding_looping hphase',hlive,hconnection,hfds]
  · have hothers : q.others id = p.others id := by
      rw [Process.others,hlive,hconnection,hfds,Process.others]
    have hends : q.ends = p.ends := by rw [hq]
    rw [hlive] at hid
    rw [hothers,hends]
    exact hi.absent id hid

/-- A connection that goes. -/
theorem removed_step (hi : ProcessInv p) (hphase : p.phase = .looping) {heap : Heap} {log : Deeds}
    (hrelay : RelayReachable heap) (hlive : { p with heap, log }.live = p.live.erase id)
    (hrun : accounts.run log ∅ = some (p.others id)) : ProcessInv { p with heap, log } := by
  obtain ⟨q,hq⟩ : ∃ q, q = { p with heap, log } := ⟨_,rfl⟩
  have hphase' : q.phase = .looping := by rw [hq]; exact hphase
  have hconnection : q.connection = p.connection := by rw [hq]; rfl
  have hfds : loopFds q.listenFd q.epollFd = loopFds p.listenFd p.epollFd := by rw [hq]
  rw [← hq] at hlive ⊢
  refine ⟨by rw [hq]; exact hrelay,?_,fun id' hid => ?_,
    fun h => absurd (hphase'.symm.trans h) (by decide),fun _ => by rw [hq]; exact hi.apart hphase⟩
  · have hlog : q.log = log := by rw [hq]
    rw [hlog,hrun,holding_looping hphase',hlive,hconnection,hfds,Process.others]
  · have hothers : q.others id' ⊆ p.others id' := by
      rw [Process.others,hlive,hconnection,hfds,Process.others]
      refine Finset.union_subset_union (Finset.Subset.refl _) ?_
      exact Finset.biUnion_subset_biUnion_of_subset_left _
        (Finset.erase_subset_erase _ (Finset.erase_subset _ _))
    have hends : q.ends = p.ends := by rw [hq]
    rw [hlive] at hid
    rw [hends]
    exact (hi.absent id' (Finset.mem_of_mem_erase hid)).mono hothers

theorem event_step (hi : ProcessInv p) {d : Side} {events : Events} {ans : Answers}
    (h : p.step (.event id d events ans) = some p') : ProcessInv p' := by
  simp only [Process.step] at h
  cases hs : p.heap.conns id with
  | none => simp [hs] at h
  | some s =>
    simp only [hs] at h
    by_cases hgo : p.phase = .looping ∧ ans.Fit d s.conn
    · rw [if_pos hgo] at h
      obtain ⟨heap,hheap,rfl⟩ := Option.map_eq_some_iff.mp h
      obtain ⟨hphase,hfit⟩ := hgo
      have hid : id ∈ p.live := mem_live.mpr ⟨(relay_inv hi.relay).lt_next hs,by simp [hs]⟩
      have hrelay : RelayReachable heap := by
        refine relay_entry hi.relay ?_ ?_ hheap
        · rintro t ht
          obtain rfl : (id,d) = t := by simpa [Entry.target] using ht
          simp [hs]
        · intro s' hs'
          obtain rfl := Option.some.inj (hs.symm.trans hs')
          exact hfit
      have hparts : parts p.epollFd id (p.ends id) (fun _ => true) ⊆ p.holding :=
        connection_holding hphase hid
      have hepoll : Resource.fd p.epollFd ∈ p.holding := loopFds_holding hphase (loopFds_epoll _ _)
      have hroutine := processEvent_routine d events ans s.conn [] (by simp)
      have huses : OnlyUses (· ∈ p.holding) (.use (.object id) ::
          (processEvent d events ans s.conn).calls.flatMap (callDeeds p.epollFd (p.ends id))) :=
        OnlyUses.append (.one (hparts (parts_mem .client).1))
          (callDeeds_uses hepoll hparts hroutine)
      have hrun : ∀ more, accounts.run (p.log ++ .use (.object id) ::
          (processEvent d events ans s.conn).calls.flatMap (callDeeds p.epollFd (p.ends id)) ++
          more) ∅ = accounts.run more p.holding := by
        intro more
        rw [List.append_assoc,Machine.run_append,hi.run,Option.bind_some,Machine.run_append,
          huses.run fun _ hr => hr,Option.bind_some]
      have hset : heap = p.heap.set id (if (s.handle d events ans).live then
          some (s.handle d events ans) else none) := by
        simp only [handleEntry,hs] at hheap
        exact (Option.some.inj hheap).symm
      have hother : ∀ id', id' ≠ id → heap.conns id' = p.heap.conns id' := by
        intro id' hne
        rw [hset,Heap.set_conns_of_ne _ _ hne]
      have hnext : heap.next = p.heap.next := by rw [hset,Heap.set_next]
      by_cases hlive : (heap.conns id).isSome = true
      · rw [if_pos hlive]
        refine kept_step hi hphase hrelay ?_ (hrun [])
        ext id'
        rw [mem_live,mem_live]
        by_cases hne : id' = id
        · subst hne
          simp [hnext,hlive,hs]
        · simp [hnext,hother id' hne]
      · rw [if_neg hlive]
        have hleft : Process.live { p with heap } = p.live.erase id := by
          ext id'
          rw [mem_live,Finset.mem_erase,mem_live]
          by_cases hne : id' = id
          · subst hne
            simp [hlive]
          · simp [hnext,hother id' hne,hne]
        refine removed_step hi hphase hrelay hleft ?_
        have hdestroy := destroyConnection_run (others_ground p id) (others_epoll p id)
          (hi.absent id hid) (fun _ => true) []
        rw [List.append_nil,Machine.run_nil] at hdestroy
        rw [hrun,holding_looping hphase,connection_others p hid]
        exact hdestroy
    · rw [if_neg hgo] at h
      contradiction

/-! ### The end of the loop -/

/-- The connections, of which the epoll instance watches those from `k` on. -/
def Process.watchedFrom (p : Process) (k : ℕ) : Finset Resource :=
  loopFds p.listenFd p.epollFd ∪ p.live.biUnion fun id => p.connection (decide (k ≤ id)) id

theorem connection_unwatched (p : Process) (id : ℕ) : p.connection true id ∪ held =
    insert (.watch p.epollFd (p.ends id).client) (insert (.watch p.epollFd (p.ends id).server)
      (p.connection false id ∪ held)) := by
  rw [Process.connection,Process.connection,parts_union,parts_union,interest_union_true,
    interest_union_true,interest_union_false,interest_union_false,Finset.insert_comm]

theorem connection_mono (p : Process) (watched : Bool) (id : ℕ) :
    p.connection watched id ⊆ p.connection true id := by
  cases watched with
  | true => exact Finset.Subset.refl _
  | false =>
    have hall := @connection_unwatched ∅ p id
    rw [Finset.union_empty,Finset.union_empty] at hall
    rw [hall]
    exact (Finset.subset_insert _ _).trans (Finset.subset_insert _ _)

/-- The watches of one connection go. -/
theorem dropWatches_run (hi : ProcessInv p) (k : ℕ) :
    accounts.run (p.dropWatches k) (p.watchedFrom k) = some (p.watchedFrom (k+1)) := by
  have hlater : ∀ id, id ≠ k → p.connection (decide (k ≤ id)) id =
      p.connection (decide (k+1 ≤ id)) id := by
    intro id hne
    have hiff : k ≤ id ↔ k+1 ≤ id := by omega
    simp only [hiff]
  unfold Process.dropWatches
  by_cases hk : k ∈ p.live
  · obtain ⟨rest,hrest⟩ : ∃ s, s = loopFds p.listenFd p.epollFd ∪
        (p.live.erase k).biUnion fun id => p.connection (decide (k+1 ≤ id)) id := ⟨_,rfl⟩
    have hsplit : ∀ j, (∀ id ∈ p.live.erase k, p.connection (decide (j ≤ id)) id =
        p.connection (decide (k+1 ≤ id)) id) →
        p.watchedFrom j = p.connection (decide (j ≤ k)) k ∪ rest := by
      intro j hj
      rw [Process.watchedFrom,← Finset.insert_erase hk,Finset.biUnion_insert,
        Finset.biUnion_congr rfl hj,hrest,Finset.union_left_comm]
    have hfrom := hsplit k fun id hid => hlater id (Finset.ne_of_mem_erase hid)
    have hnext := hsplit (k+1) fun _ _ => rfl
    have hothers : rest ⊆ p.others k := by
      rw [hrest,Process.others]
      refine Finset.union_subset_union (Finset.Subset.refl _) ?_
      exact Finset.biUnion_mono fun id _ => connection_mono p _ id
    have habsent := hi.absent k hk
    have hwatch : ∀ fd, .fd fd ∉ p.others k → Resource.watch p.epollFd fd ∉ rest := fun fd hfd h =>
      watch_absent (others_ground p k) hfd (hothers h)
    have hnotParts : ∀ fd, Resource.watch p.epollFd fd ∉ p.connection false k := by
      intro fd h
      simp [Process.connection,parts,interest] at h
    have hserver : Resource.watch p.epollFd (p.ends k).server ∉ p.connection false k ∪ rest := by
      rw [Finset.mem_union,not_or]
      exact ⟨hnotParts _,hwatch _ habsent.server⟩
    have hclient : Resource.watch p.epollFd (p.ends k).client ∉
        insert (.watch p.epollFd (p.ends k).server) (p.connection false k ∪ rest) := by
      rw [Finset.mem_insert,Finset.mem_union,not_or,not_or]
      exact ⟨by simpa using habsent.distinct,hnotParts _,hwatch _ habsent.client⟩
    rw [if_pos (mem_live.mp hk).2,hfrom,hnext,decide_eq_true (le_refl k),
      decide_eq_false (Nat.not_succ_le_self k),connection_unwatched,
      Inventory.run_release hclient (watch_unneeded _ _ _) fun q _ => watch_unneeded _ _ q,
      Inventory.run_release hserver (watch_unneeded _ _ _) fun q _ => watch_unneeded _ _ q]
    rfl
  · have hskip : ¬ (p.heap.conns k).isSome = true := by
      intro h
      obtain ⟨s,hs⟩ := Option.isSome_iff_exists.mp h
      exact hk (mem_live.mpr ⟨(relay_inv hi.relay).lt_next hs,h⟩)
    have hsame : p.watchedFrom k = p.watchedFrom (k+1) := by
      rw [Process.watchedFrom,Process.watchedFrom]
      refine congrArg _ (Finset.biUnion_congr rfl fun id hid => hlater id ?_)
      rintro rfl
      exact hk hid
    rw [if_neg hskip,hsame]
    rfl

theorem dropAll_run (hi : ProcessInv p) (n : ℕ) :
    accounts.run ((List.range n).flatMap p.dropWatches) (p.watchedFrom 0) =
      some (p.watchedFrom n) := by
  induction n with
  | zero => rfl
  | succ n ih =>
    rw [List.range_succ,List.flatMap_append,Machine.run_append,ih,Option.bind_some,
      List.flatMap_singleton,dropWatches_run hi]

/-- The epoll instance and the listener are closed last. -/
theorem closeLoop_run {listenFd epollFd : ℕ} (hne : listenFd ≠ epollFd)
    (hfree : ∀ q ∈ held, q.needs = ∅) (hlisten : .fd listenFd ∉ held) (hepoll : .fd epollFd ∉ held)
    (hwatch : .watch epollFd listenFd ∉ held) :
    accounts.run [.release (.watch epollFd listenFd),.release (.fd epollFd),
      .release (.fd listenFd)] (loopFds listenFd epollFd ∪ held) = some held := by
  have hground : Grounded Resource.needs held := fun q hq => (hfree q hq).symm ▸ Finset.empty_subset _
  have hall : loopFds listenFd epollFd ∪ held = insert (.watch epollFd listenFd)
      (insert (.fd epollFd) (insert (.fd listenFd) held)) := by
    ext r
    simp only [loopFds,Finset.mem_union,Finset.mem_insert,Finset.mem_singleton]
    tauto
  rw [hall,Inventory.run_release (by simp [hwatch]) (watch_unneeded _ _ _) fun q _ =>
    watch_unneeded _ _ q,close_run (hground.insert (Finset.empty_subset _))
    (by simpa [hepoll] using hne.symm),close_run hground hlisten]
  rfl

theorem epollWaitFails_step (hi : ProcessInv p) (h : p.step .epollWaitFails = some p') :
    ProcessInv p' := by
  obtain ⟨hphase,rfl⟩ := guarded_eq_some.mp h
  refine ⟨hi.relay,?_,hi.absent,fun h => (by contradiction),fun h => (by contradiction)⟩
  have hfd : ∀ n, .fd n ∈ loopFds p.listenFd p.epollFd →
      .fd n ∉ p.live.biUnion (p.connection false) := by
    intro n hn hmem
    obtain ⟨id,hid,hmem⟩ := Finset.mem_biUnion.mp hmem
    have habsent := hi.absent id hid
    have hothers : Resource.fd n ∈ p.others id := Finset.mem_union_left _ hn
    obtain rfl | rfl := parts_fd hmem
    · exact habsent.client hothers
    · exact habsent.server hothers
  have hplain : ∀ q ∈ p.live.biUnion (p.connection false), q.needs = ∅ := by
    intro q hq
    obtain ⟨id,-,hq⟩ := Finset.mem_biUnion.mp hq
    simp only [Process.connection,parts,interest_union_false,Finset.mem_insert,
      Finset.mem_singleton] at hq
    obtain rfl | rfl | rfl := hq <;> rfl
  have hwatch : .watch p.epollFd p.listenFd ∉ p.live.biUnion (p.connection false) := by
    intro hmem
    have hnone : Resource.fd p.epollFd ∈ (∅ : Finset Resource) := by
      rw [← hplain _ hmem]
      simp [Resource.needs]
    exact absurd hnone (Finset.notMem_empty _)
  have hstart : p.watchedFrom 0 = p.holding := by
    rw [Process.watchedFrom,holding_looping hphase]
    exact congrArg _ (Finset.biUnion_congr rfl fun id _ => by rw [decide_eq_true (Nat.zero_le id)])
  have hend : p.watchedFrom p.heap.next = loopFds p.listenFd p.epollFd ∪
      p.live.biUnion (p.connection false) := by
    rw [Process.watchedFrom]
    refine congrArg _ (Finset.biUnion_congr rfl fun id hid => ?_)
    rw [decide_eq_false (Nat.not_le.mpr (mem_live.mp hid).1)]
  have hepoll : Resource.fd p.epollFd ∈ p.holding := loopFds_holding hphase (loopFds_epoll _ _)
  change accounts.run (p.log ++ .use (.fd p.epollFd) :: (List.range p.heap.next).flatMap
    p.dropWatches ++ _) ∅ = some (p.live.biUnion (p.connection false))
  rw [List.append_assoc,Machine.run_append,hi.run,Option.bind_some,List.cons_append,
    Inventory.run_use hepoll,Machine.run_append,← hstart,dropAll_run hi,Option.bind_some,hend]
  exact closeLoop_run (hi.apart hphase) hplain (hfd _ (by simp [loopFds]))
    (hfd _ (loopFds_epoll _ _)) hwatch

/-! ### Runs -/

theorem process_step (hi : ProcessInv p) {label : ProcessLabel} (h : p.step label = some p') :
    ProcessInv p' := by
  cases label with
  | start ans => exact start_step hi h
  | epollWait =>
    obtain ⟨hphase,rfl⟩ := guarded_eq_some.mp h
    exact uses_step hi hphase (.one (loopFds_holding hphase (by simp [loopFds])))
  | acceptFails =>
    obtain ⟨hphase,rfl⟩ := guarded_eq_some.mp h
    exact uses_step hi hphase (.one (loopFds_holding hphase (by simp [loopFds])))
  | accept ans => exact accept_step hi h
  | event id d events ans => exact event_step hi h
  | epollWaitFails => exact epollWaitFails_step hi h

theorem process_inv (h : process.Reachable p) : ProcessInv p := by
  have hstep : ∀ s label t, process.Reachable s → ProcessInv s → True →
      process.step s label = some t → ProcessInv t := fun _ _ _ _ hi _ hs => process_step hi hs
  refine h.invariant ?_ hstep
  rintro s ⟨hphase,hheap,hlog⟩
  have hnone : s.live = ∅ := by
    rw [Process.live,hheap]
    rfl
  refine ⟨hheap ▸ .start,?_,?_,fun _ => ⟨hheap,hlog⟩,fun h => ?_⟩
  · rw [hlog,Process.holding,hphase]
    rfl
  · simp [hnone]
  · exact absurd (hphase.symm.trans h) (by decide)

theorem Absent.fd (h : Absent held id ends) (d : Side) : .fd (ends.fd d) ∉ held := by
  cases d with
  | client => exact h.client
  | server => exact h.server

theorem Absent.fd_injective (h : Absent held id ends) {d d' : Side} (heq : ends.fd d = ends.fd d') :
    d = d' := by
  cases d <;> cases d' <;> first | rfl | exact absurd heq h.distinct | exact absurd heq.symm h.distinct

/-- The two sockets of connection `id`. -/
def Process.sockets (p : Process) (id : ℕ) (d : Side) : ℕ := (p.ends id).fd d

/-- In every run that handles no entry of a freed connection, whatever calls fail: the heap goes
through states of the relay; everything is opened before it is used, used only while it is open
and closed once, after what needs it; what is open is the listener and the epoll instance in the
loop, and an object and two watched sockets for each live connection; and no descriptor belongs to
two of these. -/
theorem descriptors_accounted (h : process.Reachable p) :
    RelayReachable p.heap ∧ InOrder Resource.needs p.log ∧ Books p.log p.holding ∧
    (∀ id ∈ p.live, ∀ id' ∈ p.live, ∀ d d', p.sockets id d = p.sockets id' d' →
      id = id' ∧ d = d') ∧
    (∀ id ∈ p.live, ∀ d, p.sockets id d ≠ p.listenFd ∧ p.sockets id d ≠ p.epollFd) ∧
    (p.phase = .looping → p.listenFd ≠ p.epollFd) := by
  have hi := process_inv h
  refine ⟨hi.relay,Inventory.inOrder hi.run,Inventory.books hi.run,?_,fun id hid d => ?_,hi.apart⟩
  · intro id hid id' hid' d d' heq
    have habsent := hi.absent id hid
    by_cases hne : id' = id
    · subst hne
      exact ⟨rfl,habsent.fd_injective heq⟩
    · have hother : Resource.fd (p.sockets id' d') ∈ p.others id := by
        refine Finset.mem_union_right _ (Finset.mem_biUnion.mpr ⟨id',?_,(parts_mem d').2.1⟩)
        exact Finset.mem_erase.mpr ⟨hne,hid'⟩
      rw [← heq] at hother
      exact absurd hother (habsent.fd d)
  · have hnot : Resource.fd (p.sockets id d) ∉ loopFds p.listenFd p.epollFd := fun hmem =>
      (hi.absent id hid).fd d (Finset.mem_union_left _ hmem)
    simpa [loopFds] using hnot

/-- Two connections come, between them one whose server socket epoll refuses. The first is reset
and its descriptors come back for a third one; then `epoll_wait` fails. -/
def processLabels : List ProcessLabel :=
  [.start ⟨some 3,true,true,true,true,true,some 4,true⟩,.epollWait,
    .accept ⟨5,⟨some 6,true,true,true,true,true,true⟩,true,true,true,true,true,true,true⟩,
    .accept ⟨7,⟨some 8,true,true,true,true,true,true⟩,true,true,true,true,true,true,false⟩,
    .accept ⟨7,⟨some 8,true,true,true,true,true,true⟩,true,true,true,true,true,true,true⟩,
    .acceptFails,.epollWait,
    .event 1 .client { epollin := true } ⟨.data [1,2],.wouldBlock,true,true⟩,
    .event 0 .client { epollin := true, epollerr := true } ⟨.error,.wouldBlock,true,true⟩,
    .accept ⟨5,⟨some 6,true,true,true,true,true,true⟩,true,true,true,true,true,true,true⟩,
    .epollWait,.epollWaitFails]

def beforeMain : Process := ⟨.begun,0,0,Heap.empty,fun _ => ⟨0,0⟩,[]⟩

theorem descriptors_accounted_run : ∃ p, process.run processLabels beforeMain = some p ∧
    p.log.length = 124 ∧ RelayReachable p.heap ∧ InOrder Resource.needs p.log ∧
    Books p.log {.object 1,.fd 7,.fd 8,.object 2,.fd 5,.fd 6} := by
  have hview : (process.run processLabels beforeMain).map (fun p => (p.log.length,p.holding)) =
      some (124,{.object 1,.fd 7,.fd 8,.object 2,.fd 5,.fd 6}) := by decide +kernel
  obtain ⟨p,hrun,hout⟩ := Option.map_eq_some_iff.mp hview
  obtain ⟨hlength,hholding⟩ := Prod.mk.inj hout
  obtain ⟨hrelay,horder,hbooks,-⟩ :=
    descriptors_accounted (Machine.Reachable.of_run (.init ⟨rfl,rfl,rfl⟩) hrun)
  rw [hholding] at hbooks
  exact ⟨p,hrun,hlength,hrelay,horder,hbooks⟩

end NetLab.Accelerator
