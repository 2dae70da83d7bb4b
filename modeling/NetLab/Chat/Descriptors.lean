import NetLab.Chat.Loop

/-! Connections and the descriptor numbers they are known by. The main loop looks a client up by
its number, so within one batch a number that changes hands changes the meaning of an event. -/
namespace NetLab.Chat

/-- Every connected slot has an open connection of its own, every open connection a slot, and
the connections are numbered below the next number. -/
structure FdInv (s : Server) : Prop where
  listening : s.fds s.serverFd = none
  opened : ∀ i, (s.clients i).active = true → (s.fds (s.clients i).fd).isSome = true
  owned : ∀ fd, (s.fds fd).isSome = true → ∃ i, (s.clients i).active = true ∧ (s.clients i).fd = fd
  unique : ∀ i j, (s.clients i).active = true → (s.clients j).active = true →
    (s.clients i).fd = (s.clients j).fd → i = j
  numbered : ∀ fd c, s.fds fd = some c → c < s.accepted

section Invariant

variable {s t : Server} {i : Slot} {closed : Option Slot}

/-- Everything else the server keeps is of no account here. -/
theorem FdInv.congr (h : FdInv s) (hserver : t.serverFd = s.serverFd) (hfds : t.fds = s.fds)
    (haccepted : s.accepted ≤ t.accepted) (hclients : ∀ j,
      (t.clients j).active = (s.clients j).active ∧ (t.clients j).fd = (s.clients j).fd) :
    FdInv t where
  listening := by rw [hserver,hfds]; exact h.listening
  opened j hj := by
    rw [hfds,(hclients j).2]
    exact h.opened j ((hclients j).1 ▸ hj)
  owned fd hfd := by
    rw [hfds] at hfd
    obtain ⟨j,hj,hjfd⟩ := h.owned fd hfd
    exact ⟨j,(hclients j).1.trans hj,(hclients j).2.trans hjfd⟩
  unique j k hj hk hfd :=
    h.unique j k ((hclients j).1 ▸ hj) ((hclients k).1 ▸ hk)
      (by rw [← (hclients j).2,← (hclients k).2,hfd])
  numbered fd c hfd := by
    rw [hfds] at hfd
    exact (h.numbered fd c hfd).trans_le haccepted

/-- A slot that is still connected has kept its connection. -/
theorem Closing.active (h : Closing s t closed) {j : Slot} (hj : (t.clients j).active = true) :
    closed ≠ some j ∧ (s.clients j).active = true ∧ (t.clients j).fd = (s.clients j).fd := by
  have hne : closed ≠ some j := by
    intro hc
    rw [(h.free j hc).2] at hj
    exact Bool.noConfusion hj
  obtain ⟨hactive,hfd,-⟩ := h.kept j hne
  exact ⟨hne,hactive ▸ hj,hfd⟩

/-- Descriptors are only closed, and only that of the closed slot. -/
theorem Closing.fds_apply (h : Closing s t closed) (fd : ℤ) :
    t.fds fd = s.fds fd ∨ (t.fds fd = none ∧ ∃ j, closed = some j ∧ (s.clients j).fd = fd) := by
  rw [h.fds]
  cases closed with
  | none => exact Or.inl rfl
  | some j =>
    by_cases hfd : fd = (s.clients j).fd
    · subst hfd
      exact Or.inr ⟨Function.update_self _ _ _,j,rfl,rfl⟩
    · exact Or.inl (Function.update_of_ne hfd _ _)

theorem FdInv.closing (h : FdInv s) (hc : Closing s t closed) : FdInv t where
  listening := by
    rw [hc.serverFd]
    rcases hc.fds_apply s.serverFd with heq | ⟨hnone,-⟩
    · rw [heq]
      exact h.listening
    · exact hnone
  opened j hj := by
    obtain ⟨hne,hactive,hfd⟩ := hc.active hj
    rw [hfd]
    rcases hc.fds_apply (s.clients j).fd with heq | ⟨-,k,hk,hsame⟩
    · rw [heq]
      exact h.opened j hactive
    · obtain rfl := h.unique k j (hc.free k hk).1 hactive hsame
      exact absurd hk hne
  owned fd hfd := by
    rcases hc.fds_apply fd with heq | ⟨hnone,-⟩
    · rw [heq] at hfd
      obtain ⟨j,hactive,hjfd⟩ := h.owned fd hfd
      by_cases hj : closed = some j
      · have hgone : t.fds fd = none := by
          rw [hc.fds,hj,← hjfd]
          exact Function.update_self _ _ _
        rw [← heq,hgone] at hfd
        exact Bool.noConfusion hfd
      · obtain ⟨ha,hf,-⟩ := hc.kept j hj
        exact ⟨j,ha.trans hactive,hf.trans hjfd⟩
    · rw [hnone] at hfd
      exact Bool.noConfusion hfd
  unique j k hj hk hfd := by
    obtain ⟨-,haj,hfj⟩ := hc.active hj
    obtain ⟨-,hak,hfk⟩ := hc.active hk
    exact h.unique j k haj hak (by rw [← hfj,← hfk,hfd])
  numbered fd c hfd := by
    rw [hc.accepted]
    rcases hc.fds_apply fd with heq | ⟨hnone,-⟩
    · exact h.numbered fd c (heq ▸ hfd)
    · rw [hnone] at hfd
      contradiction

/-- A free slot takes a connection under an unused number. -/
theorem FdInv.connect (h : FdInv s) {fd : ℤ} (hfree : (s.clients i).active = false)
    (hserver : fd ≠ s.serverFd) (hunused : s.fds fd = none) :
    FdInv ((s.openFd fd).setClient i (Client.connected fd)) := by
  have hclient : ∀ j, ((s.openFd fd).setClient i (Client.connected fd)).clients j =
      if j = i then Client.connected fd else s.clients j := by
    intro j
    by_cases hj : j = i
    · rw [if_pos hj,hj,Server.setClient_clients_self]
    · rw [if_neg hj,Server.setClient_clients_of_ne _ _ hj]
      rfl
  have hother : ∀ j, (s.clients j).active = true → (s.clients j).fd ≠ fd := by
    rintro j hj rfl
    have := h.opened j hj
    rw [hunused] at this
    exact Bool.noConfusion this
  constructor
  · exact (Function.update_of_ne hserver.symm _ _).trans h.listening
  · intro j hj
    change (Function.update s.fds fd (some s.accepted) _).isSome = true
    rw [hclient] at hj ⊢
    split_ifs at hj ⊢
    · exact congrArg Option.isSome (Function.update_self fd (some s.accepted) s.fds)
    · rw [Function.update_of_ne (hother j hj)]
      exact h.opened j hj
  · intro g hg
    change (Function.update s.fds fd (some s.accepted) g).isSome = true at hg
    by_cases hgf : g = fd
    · exact ⟨i,by rw [hclient,if_pos rfl]; rfl,by rw [hclient,if_pos rfl]; exact hgf.symm⟩
    · rw [Function.update_of_ne hgf] at hg
      obtain ⟨j,hj,hjg⟩ := h.owned g hg
      have hji : j ≠ i := by
        rintro rfl
        rw [hfree] at hj
        exact Bool.noConfusion hj
      exact ⟨j,by rw [hclient,if_neg hji]; exact hj,by rw [hclient,if_neg hji]; exact hjg⟩
  · intro j k hj hk hfd
    rw [hclient] at hj hk
    rw [hclient,hclient] at hfd
    split_ifs at hj hk hfd with hji hki hki
    · rw [hji,hki]
    · exact absurd hfd.symm (hother k hk)
    · exact absurd hfd (hother j hj)
    · exact h.unique j k hj hk hfd
  · intro g c hg
    change Function.update s.fds fd (some s.accepted) g = some c at hg
    change c < s.accepted+1
    by_cases hgf : g = fd
    · rw [hgf,Function.update_self] at hg
      obtain rfl := Option.some.inj hg
      exact Nat.lt_succ_self _
    · rw [Function.update_of_ne hgf] at hg
      exact Nat.lt_succ_of_lt (h.numbered g c hg)

/-- A refused connection is closed under the number it was accepted with. -/
theorem refuse_fds {fd : ℤ} (hunused : s.fds fd = none) :
    ((s.openFd fd).closeFd fd).fds = s.fds := by
  change Function.update (Function.update s.fds fd (some s.accepted)) fd none = s.fds
  rw [Function.update_idem,← hunused,Function.update_eq_self]

theorem disconnectClient_closing_or_same (s : Server) (i : Slot) :
    (∃ closed, Closing s (s.disconnectClient i) closed) := by
  by_cases h : (s.clients i).active = true
  · exact ⟨_,disconnectClient_closing h⟩
  · refine ⟨none,?_⟩
    rw [show s.disconnectClient i = s by simp [Server.disconnectClient,h]]
    exact Closing.refl s

theorem setBuffer_clients (s : Server) (i : Slot) (buffer : Bytes) (j : Slot) :
    ∃ b, (s.setClient i { s.clients i with inputBuffer := buffer }).clients j =
      { s.clients j with inputBuffer := b } := by
  by_cases hj : j = i
  · subst hj
    exact ⟨buffer,Server.setClient_clients_self _ _ _⟩
  · exact ⟨(s.clients j).inputBuffer,Server.setClient_clients_of_ne _ _ hj⟩

theorem fdInv_event : EventInvariant FdInv where
  client i :=
    { tells := by
        rintro s t ⟨sent,rfl⟩ hs
        exact hs.congr rfl rfl le_rfl (fun _ => ⟨rfl,rfl⟩)
      buffer := fun s buffer hs => hs.congr rfl rfl le_rfl (fun j => by
        obtain ⟨b,hb⟩ := setBuffer_clients s i buffer j
        rw [hb]
        exact ⟨rfl,rfl⟩)
      line := fun s t hactive he hs => by
        obtain ⟨closed,hc⟩ := he.closing hactive
        exact hs.closing hc
      close := fun s hs => by
        obtain ⟨closed,hc⟩ := disconnectClient_closing_or_same s i
        exact hs.closing hc
      recv := fun s fd hs => hs.congr rfl rfl le_rfl (fun _ => ⟨rfl,rfl⟩) }
  connect s i fd hfree hserver hunused hs := hs.connect hfree hserver hunused
  refuse s fd _ hunused hs :=
    hs.congr rfl (refuse_fds hunused) (Nat.le_succ _) (fun _ => ⟨rfl,rfl⟩)

theorem boot_fdInv (users : List User) (disk : Disk) (serverFd : ℤ) :
    FdInv (Server.boot users disk serverFd []) where
  listening := rfl
  opened _ h := Bool.noConfusion h
  owned _ h := Bool.noConfusion h
  unique _ _ h := Bool.noConfusion h
  numbered _ _ h := by simp [Server.boot] at h

end Invariant

/-- The receives of a journal: the descriptor and the connection that was open under it. -/
def recvs (journal : List Journal) : List (ℤ × Option ℕ) :=
  journal.filterMap (fun
    | .recv fd connection => some (fd,connection)
    | _ => none)

@[simp] theorem recvs_append (l m : List Journal) : recvs (l ++ m) = recvs l ++ recvs m :=
  List.filterMap_append

/-- The receives between two states of a run. -/
def newRecvs (s t : Server) : List (ℤ × Option ℕ) :=
  (recvs t.journal).drop (recvs s.journal).length

section OneEvent

variable {s t : Server} {i : Slot} {e : Entry}

/-- A line is handled without any `recv`. -/
theorem LineEffect.recvs_eq (h : LineEffect s i t) : recvs t.journal = recvs s.journal := by
  have hnew : ∀ j : Journal, recvs [j] = [] → recvs (s.journal ++ [j]) = recvs s.journal := by
    intro j hj
    rw [recvs_append,hj,List.append_nil]
  cases h with
  | leave => rw [disconnectClient_journal]
  | register => exact hnew _ rfl
  | unsaved =>
    rw [disconnectClient_journal]
    exact hnew _ rfl
  | message => exact hnew _ rfl
  | remove _ k u _ _ _ ok =>
    rw [closeSession_journal]
    exact hnew _ rfl
  | restore => exact hnew _ rfl
  | _ => rfl

theorem recvs_line (i : Slot) (l : List (ℤ × Option ℕ)) :
    LineInvariant (fun s => recvs s.journal = l) i where
  tells := by
    rintro s t ⟨sent,rfl⟩ hs
    exact hs
  buffer _ _ hs := hs
  line s t _ he hs := he.recvs_eq.trans hs

/-- An event of a client receives exactly once, from the connection then open under its number;
an event that finds no client, and one of the listening socket, do not receive. -/
theorem handleEntry_recvs (s : Server) (e : Entry) :
    recvs (s.handleEntry e).journal = recvs s.journal ++
      (if e.fd ≠ s.serverFd ∧ (s.findClientByFd e.fd).isSome = true then [(e.fd,s.fds e.fd)] else []) := by
  unfold Server.handleEntry
  by_cases he : e.fd = s.serverFd
  · rw [if_pos he,if_neg (fun h => h.1 he),List.append_nil]
    cases e.accept with
    | none => rfl
    | some answer =>
      simp only [Server.handleAccept]
      split
      · rfl
      · split
        · rw [disconnectClient_journal]
          rfl
        · rfl
  · rw [if_neg he]
    cases hi : s.findClientByFd e.fd with
    | none => simp
    | some i =>
      have hrecv : recvs (s.journal ++ [.recv e.fd (s.fds e.fd)]) =
          recvs s.journal ++ [(e.fd,s.fds e.fd)] := by
        rw [recvs_append]
        rfl
      rw [if_pos ⟨he,rfl⟩]
      cases e.recv with
      | data bytes envs => exact (recvs_line i _).handleData bytes envs hrecv
      | fin => exact (congrArg recvs (disconnectClient_journal _ i)).trans hrecv
      | interrupted => exact hrecv
      | error => exact (congrArg recvs (disconnectClient_journal _ i)).trans hrecv

/-- From `s` to `t` connections are only closed: none is taken and no number changes hands. -/
structure Shrinks (s t : Server) : Prop where
  serverFd : t.serverFd = s.serverFd
  accepted : t.accepted = s.accepted
  slots : ∀ i, (t.clients i).active = true →
    (s.clients i).active = true ∧ (t.clients i).fd = (s.clients i).fd
  fds : ∀ fd, t.fds fd = s.fds fd ∨ t.fds fd = none

theorem Shrinks.refl (s : Server) : Shrinks s s :=
  ⟨rfl,rfl,fun _ h => ⟨h,rfl⟩,fun _ => Or.inl rfl⟩

theorem Shrinks.trans {u : Server} (h : Shrinks s t) (h' : Shrinks t u) : Shrinks s u where
  serverFd := h'.serverFd.trans h.serverFd
  accepted := h'.accepted.trans h.accepted
  slots j hj := by
    obtain ⟨ha,hf⟩ := h'.slots j hj
    obtain ⟨ha',hf'⟩ := h.slots j ha
    exact ⟨ha',hf.trans hf'⟩
  fds fd := by
    rcases h'.fds fd with heq | hnone
    · rw [heq]
      exact h.fds fd
    · exact Or.inr hnone

theorem Closing.shrinks {closed : Option Slot} (h : Closing s t closed) : Shrinks s t where
  serverFd := h.serverFd
  accepted := h.accepted
  slots _ hj := (h.active hj).2
  fds fd := (h.fds_apply fd).imp_right And.left

theorem shrinks_client (s : Server) (i : Slot) : ClientInvariant (Shrinks s) i where
  tells := by
    rintro t u ⟨sent,rfl⟩ h
    exact ⟨h.serverFd,h.accepted,h.slots,h.fds⟩
  buffer t buffer h := by
    refine ⟨h.serverFd,h.accepted,fun j hj => ?_,h.fds⟩
    obtain ⟨b,hb⟩ := setBuffer_clients t i buffer j
    rw [hb] at hj ⊢
    exact h.slots j hj
  line t u hactive he h := by
    obtain ⟨closed,hc⟩ := he.closing hactive
    exact h.trans hc.shrinks
  close t h := by
    obtain ⟨closed,hc⟩ := disconnectClient_closing_or_same t i
    exact h.trans hc.shrinks
  recv t fd h := ⟨h.serverFd,h.accepted,h.slots,h.fds⟩

theorem handleEntry_shrinks (he : e.fd ≠ s.serverFd) : Shrinks s (s.handleEntry e) :=
  ClientInvariant.handleEntry he (fun i _ => shrinks_client s i) (Shrinks.refl s)

/-- A slot whose connection has number `c` and nobody has logged in on. -/
structure Fresh (i : Slot) (fd : ℤ) (c : ℕ) (s : Server) : Prop where
  active : (s.clients i).active = true
  fd_eq : (s.clients i).fd = fd
  loggedIn : (s.clients i).loggedIn = false
  connection : s.fds fd = some c

/-- A line of another client does not reach a slot nobody has logged in on. -/
theorem LineEffect.bystander (h : LineEffect s i t) {j : Slot} (hj : j ≠ i)
    (hlogged : (s.clients j).loggedIn = false) : t.clients j = s.clients j := by
  have hset : ∀ (u : Server) c, (u.setClient i c).clients j = u.clients j :=
    fun u c => Server.setClient_clients_of_ne u c hj
  have hdisconnect : ∀ (u : Server) (k : Slot), j ≠ k →
      (u.disconnectClient k).clients j = u.clients j := by
    intro u k hjk
    unfold Server.disconnectClient
    split
    · rfl
    · exact Server.setClient_clients_of_ne _ _ hjk
  cases h with
  | answer => rfl
  | leave => exact hdisconnect s i hj
  | unsaved => exact hdisconnect _ i hj
  | message => rfl
  | restore => rfl
  | remove _ k u _ _ _ ok =>
    cases hf : s.findClientByUserId u.id with
    | none => rfl
    | some target =>
      have hne : j ≠ target := by
        rintro rfl
        rw [(findClientByUserId_some hf).2.1] at hlogged
        contradiction
      exact hdisconnect _ target hne
  | _ => exact hset _ _

/-- Closing another slot leaves the connection where it is. -/
theorem Fresh.closing {closed : Option Slot} {j : Slot} {fd : ℤ} {c : ℕ} (h : Fresh j fd c s)
    (hs : FdInv s) (hc : Closing s t closed) (hsame : t.clients j = s.clients j) :
    Fresh j fd c t where
  active := by rw [hsame]; exact h.active
  fd_eq := by rw [hsame]; exact h.fd_eq
  loggedIn := by rw [hsame]; exact h.loggedIn
  connection := by
    rcases hc.fds_apply fd with heq | ⟨-,k,hk,hfd⟩
    · rw [heq]
      exact h.connection
    · obtain ⟨hactive,hfree⟩ := hc.free k hk
      obtain rfl := hs.unique k j hactive h.active (hfd.trans h.fd_eq.symm)
      have hidle := h.active
      rw [← hsame,hfree] at hidle
      exact Bool.noConfusion hidle

theorem fresh_client {j : Slot} (hj : j ≠ i) (fd : ℤ) (c : ℕ) :
    ClientInvariant (fun s => FdInv s ∧ Fresh j fd c s) i where
  tells := by
    rintro s t htells ⟨hs,h⟩
    refine ⟨(fdInv_event.client i).tells s t htells hs,?_⟩
    obtain ⟨sent,rfl⟩ := htells
    exact ⟨h.active,h.fd_eq,h.loggedIn,h.connection⟩
  buffer := by
    rintro s buffer ⟨hs,h⟩
    refine ⟨(fdInv_event.client i).buffer s buffer hs,?_⟩
    have hsame := Server.setClient_clients_of_ne s { s.clients i with inputBuffer := buffer } hj
    exact ⟨by rw [hsame]; exact h.active,by rw [hsame]; exact h.fd_eq,
      by rw [hsame]; exact h.loggedIn,h.connection⟩
  line := by
    rintro s t hactive he ⟨hs,h⟩
    obtain ⟨closed,hc⟩ := he.closing hactive
    exact ⟨hs.closing hc,h.closing hs hc (he.bystander hj h.loggedIn)⟩
  close := by
    rintro s ⟨hs,h⟩
    obtain ⟨closed,hc⟩ := disconnectClient_closing_or_same s i
    refine ⟨hs.closing hc,h.closing hs hc ?_⟩
    unfold Server.disconnectClient
    split
    · rfl
    · exact Server.setClient_clients_of_ne _ _ hj
  recv := by
    rintro s g ⟨hs,h⟩
    exact ⟨(fdInv_event.client i).recv s g hs,h.active,h.fd_eq,h.loggedIn,h.connection⟩

theorem findClientByFd_isSome {fd : ℤ} (hactive : (s.clients i).active = true)
    (hfd : (s.clients i).fd = fd) : (s.findClientByFd fd).isSome = true := by
  rw [Server.findClientByFd,List.find?_isSome]
  exact ⟨i,List.mem_finRange i,by simp [hactive,hfd]⟩

/-- With a free slot, an accepted connection that `epoll_ctl` adds is there to receive from. -/
theorem handleAccept_fresh {j : Slot} (hfree : (s.clients j).active = false) {answer : AcceptAnswer}
    (hregisters : answer.registers = true) :
    ∃ i, Fresh i answer.fd s.accepted (s.handleAccept answer) := by
  have hsome : (s.openFd answer.fd).findFreeClientSlot.isSome = true := by
    rw [Server.findFreeClientSlot,List.find?_isSome]
    refine ⟨j,List.mem_finRange j,?_⟩
    change (!(s.clients j).active) = true
    rw [hfree]
    rfl
  obtain ⟨i,hi⟩ := Option.isSome_iff_exists.mp hsome
  have haccept : s.handleAccept answer =
      ((s.openFd answer.fd).setClient i (Client.connected answer.fd)).sendText answer.fd
        (ascii "Enter your username: ") := by
    simp [Server.handleAccept,hi,hregisters]
  have hslot : (s.handleAccept answer).clients i = Client.connected answer.fd := by
    rw [haccept]
    exact Server.setClient_clients_self _ _ _
  refine ⟨i,by rw [hslot]; rfl,by rw [hslot]; rfl,by rw [hslot]; rfl,?_⟩
  rw [haccept]
  exact Function.update_self _ _ _

end OneEvent

/-- What `epoll_wait` may return: at most one entry for each descriptor, and only for the
listening socket and open connections. -/
structure ValidBatch (s : Server) (es : List Entry) : Prop where
  nodup : (es.map Entry.fd).Nodup
  known : ∀ e ∈ es, e.fd = s.serverFd ∨ (s.fds e.fd).isSome = true

/-- No connection that is accepted and registered while the batch is handled gets the number of
a descriptor with an entry still to come. -/
def NoReuse (s : Server) (es : List Entry) : Prop :=
  es.Pairwise (fun a b => a.fd = s.serverFd →
    ∀ answer ∈ a.accept, answer.registers = true → answer.fd ≠ b.fd)

section Batches

variable {loaded : List User → Prop} {s t u : Server} {es : List Entry}

theorem run_cons_entry {e : Entry} (h : (serving loaded).run (e::es) u = some t) :
    e.Fits u ∧ (serving loaded).run es (u.handleEntry e) = some t := by
  obtain ⟨v,hv,hrun⟩ := Option.bind_eq_some_iff.mp h
  obtain ⟨hfits,rfl⟩ := serving_step.mp hv
  exact ⟨hfits,hrun⟩

/-- The receives of a run come one after the other. -/
theorem run_recvs (h : (serving loaded).run es u = some t) :
    recvs u.journal <+: recvs t.journal := by
  induction es generalizing u with
  | nil =>
    obtain rfl : u = t := by simpa using h
    exact List.prefix_rfl
  | cons e es ih =>
    obtain ⟨-,hrun⟩ := run_cons_entry h
    refine List.IsPrefix.trans ?_ (ih hrun)
    rw [handleEntry_recvs]
    exact List.prefix_append _ _

theorem mem_newRecvs (h : recvs u.journal <+: recvs t.journal) :
    recvs t.journal = recvs u.journal ++ newRecvs u t := by
  obtain ⟨new,hnew⟩ := h
  rw [newRecvs,← hnew,List.drop_left]

theorem newRecvs_cons {e : Entry} (h : (serving loaded).run es (u.handleEntry e) = some t) :
    newRecvs u t = (if e.fd ≠ u.serverFd ∧ (u.findClientByFd e.fd).isSome = true then
      [(e.fd,u.fds e.fd)] else []) ++ newRecvs (u.handleEntry e) t := by
  have hrest := mem_newRecvs (run_recvs h)
  rw [handleEntry_recvs,List.append_assoc] at hrest
  rw [newRecvs,hrest,List.drop_left]

/-- What an event does to the numbers: a connection stays, is closed, or is the one that the
event has just taken in. -/
theorem handleEntry_fds {e : Entry} (hfits : e.Fits u) (fd : ℤ) :
    (u.handleEntry e).fds fd = u.fds fd ∨ (u.handleEntry e).fds fd = none ∨
      (e.fd = u.serverFd ∧ ∃ answer ∈ e.accept, answer.registers = true ∧ answer.fd = fd) := by
  by_cases he : e.fd = u.serverFd
  · cases ha : e.accept with
    | none => exact Or.inl (by simp [Server.handleEntry,he,ha])
    | some answer =>
      obtain ⟨-,-,hunused⟩ := hfits.1 answer ha
      have hentry : u.handleEntry e = u.handleAccept answer := by
        simp [Server.handleEntry,he,ha]
      rw [hentry]
      by_cases hfd : fd = answer.fd
      · by_cases hr : answer.registers = true
        · exact Or.inr (Or.inr ⟨he,answer,rfl,hr,hfd.symm⟩)
        · right
          left
          rw [hfd]
          simp only [Server.handleAccept]
          split
          · exact Function.update_self _ _ _
          · next i _ =>
            rw [if_pos (by simp [hr])]
            rw [disconnectClient_eq (by rw [Server.setClient_clients_self]; rfl),
              Server.setClient_clients_self]
            exact Function.update_self _ _ _
      · left
        have hopen : (u.openFd answer.fd).fds fd = u.fds fd := Function.update_of_ne hfd _ _
        simp only [Server.handleAccept]
        split
        · exact (Function.update_of_ne hfd _ _).trans hopen
        · split
          · rw [disconnectClient_eq (by rw [Server.setClient_clients_self]; rfl),
              Server.setClient_clients_self]
            exact (Function.update_of_ne hfd _ _).trans hopen
          · exact hopen
  · rcases (handleEntry_shrinks he).fds fd with heq | hnone
    · exact Or.inl heq
    · exact Or.inr (Or.inl hnone)

theorem handleEntry_serverFd (u : Server) (e : Entry) : (u.handleEntry e).serverFd = u.serverFd := by
  by_cases he : e.fd = u.serverFd
  · unfold Server.handleEntry
    rw [if_pos he]
    cases e.accept with
    | none => rfl
    | some answer =>
      simp only [Server.handleAccept]
      split
      · rfl
      · split
        · obtain ⟨closed,hc⟩ := disconnectClient_closing_or_same
            ((u.openFd answer.fd).setClient _ (Client.connected answer.fd)) _
          exact hc.serverFd
        · rfl
  · exact (handleEntry_shrinks he).serverFd

/-- While no number changes hands, every receive is from the connection that had the number at
the start. -/
theorem recvs_of_noReuse (hu : FdInv u) (hserver : u.serverFd = s.serverFd)
    (hsame : ∀ e ∈ es, u.fds e.fd = s.fds e.fd ∨ u.fds e.fd = none) (hno : NoReuse s es)
    (hrun : (serving loaded).run es u = some t) : ∀ r ∈ newRecvs u t, r.2 = s.fds r.1 := by
  induction es generalizing u with
  | nil =>
    obtain rfl : u = t := by simpa using hrun
    simp [newRecvs]
  | cons e es ih =>
    obtain ⟨hfits,hrest⟩ := run_cons_entry hrun
    obtain ⟨hhead,htail⟩ := List.pairwise_cons.mp hno
    have hnext : ∀ b ∈ es, (u.handleEntry e).fds b.fd = s.fds b.fd ∨
        (u.handleEntry e).fds b.fd = none := by
      intro b hb
      rcases handleEntry_fds hfits b.fd with heq | hnone | ⟨he,answer,ha,hr,hfd⟩
      · rw [heq]
        exact hsame b (List.mem_cons_of_mem _ hb)
      · exact Or.inr hnone
      · exact absurd hfd (hhead b hb (he.trans hserver) answer ha hr)
    have hih := ih (fdInv_event.handleEntry hfits hu) ((handleEntry_serverFd u e).trans hserver)
      hnext htail hrest
    intro r hr
    rw [newRecvs_cons hrest] at hr
    rcases List.mem_append.mp hr with hr | hr
    · split_ifs at hr with hfound
      · obtain rfl := List.mem_singleton.mp hr
        obtain ⟨i,hi⟩ := Option.isSome_iff_exists.mp hfound.2
        obtain ⟨hactive,hfd⟩ := findClientByFd_some hi
        have hopen := hu.opened i hactive
        rw [hfd] at hopen
        rcases hsame e List.mem_cons_self with heq | hnone
        · exact heq
        · rw [hnone] at hopen
          exact Bool.noConfusion hopen
      · exact absurd hr List.not_mem_nil
    · exact hih r hr

/-- A fresh connection is still there when the entry for its number is handled. -/
theorem recv_of_fresh {i : Slot} {fd : ℤ} {c : ℕ} (hu : FdInv u) (hfresh : Fresh i fd c u)
    (hclients : ∀ e ∈ es, e.fd ≠ u.serverFd) (hmem : fd ∈ es.map Entry.fd)
    (hrun : (serving loaded).run es u = some t) : (fd,some c) ∈ newRecvs u t := by
  induction es generalizing u with
  | nil => simp at hmem
  | cons e es ih =>
    obtain ⟨hfits,hrest⟩ := run_cons_entry hrun
    have hclient := hclients e List.mem_cons_self
    rw [newRecvs_cons hrest]
    by_cases he : e.fd = fd
    · apply List.mem_append_left
      rw [if_pos ⟨hclient,findClientByFd_isSome hfresh.active (hfresh.fd_eq.trans he.symm)⟩,he,
        hfresh.connection]
      exact List.mem_singleton_self _
    · apply List.mem_append_right
      have hothers : ∀ j, u.findClientByFd e.fd = some j →
          ClientInvariant (fun s => FdInv s ∧ Fresh i fd c s) j := by
        intro j hj
        refine fresh_client (fun hij => he ?_) fd c
        rw [← (findClientByFd_some hj).2,← hij,hfresh.fd_eq]
      have hkept : FdInv (u.handleEntry e) ∧ Fresh i fd c (u.handleEntry e) :=
        ClientInvariant.handleEntry hclient hothers ⟨hu,hfresh⟩
      apply ih hkept.1 hkept.2
      · intro b hb
        rw [handleEntry_serverFd]
        exact hclients b (List.mem_cons_of_mem _ hb)
      · exact (List.mem_cons.mp hmem).resolve_left (fun h => he h.symm)
      · exact hrest

/-- The number of an open connection `b.fd` is free again when `accept` answers it, so the new
connection finds a slot, and the later entry for the number receives from it. -/
theorem recv_of_reuse {e b : Entry} {answer : AcceptAnswer} (hs : FdInv s) (hu : FdInv u)
    (hshrinks : Shrinks s u) (hfits : e.Fits u) (he : e.fd = s.serverFd)
    (ha : e.accept = some answer) (hr : answer.registers = true) (hb : b ∈ es)
    (hfd : answer.fd = b.fd) (hclients : ∀ b ∈ es, b.fd ≠ s.serverFd)
    (hknown : (s.fds b.fd).isSome = true)
    (hrest : (serving loaded).run es (u.handleEntry e) = some t) :
    ∃ r ∈ newRecvs (u.handleEntry e) t, r.2 ≠ s.fds r.1 := by
  obtain ⟨-,-,hunused⟩ := hfits.1 answer ha
  obtain ⟨c,hc⟩ := Option.isSome_iff_exists.mp hknown
  -- the connection that had the number is gone, so its slot is free
  obtain ⟨j,hj,hjfd⟩ := hs.owned b.fd hknown
  have hfree : (u.clients j).active = false := by
    by_contra hactive
    simp only [Bool.not_eq_false] at hactive
    have hopen := hu.opened j hactive
    rw [(hshrinks.slots j hactive).2,hjfd,← hfd,hunused] at hopen
    exact Bool.noConfusion hopen
  have hentry : u.handleEntry e = u.handleAccept answer := by
    simp [Server.handleEntry,hshrinks.serverFd,he,ha]
  obtain ⟨i,hi⟩ := handleAccept_fresh hfree hr
  rw [← hentry] at hi
  have hnew : (answer.fd,some u.accepted) ∈ newRecvs (u.handleEntry e) t := by
    apply recv_of_fresh (fdInv_event.handleEntry hfits hu) hi _ _ hrest
    · intro b hb
      rw [handleEntry_serverFd,hshrinks.serverFd]
      exact hclients b hb
    · rw [hfd]
      exact List.mem_map_of_mem hb
  refine ⟨_,hnew,?_⟩
  have hold := hs.numbered b.fd c hc
  rw [← hshrinks.accepted] at hold
  rw [hfd,hc]
  exact fun heq => hold.ne (Option.some.inj heq).symm

/-- When a number changes hands, the entry still to come receives from the new connection. -/
theorem bad_recv_of_reuse (hs : FdInv s) (hv : ValidBatch s es) (hu : FdInv u)
    (hshrinks : Shrinks s u) (hreuse : ¬ NoReuse s es)
    (hrun : (serving loaded).run es u = some t) : ∃ r ∈ newRecvs u t, r.2 ≠ s.fds r.1 := by
  induction es generalizing u with
  | nil => exact absurd List.Pairwise.nil hreuse
  | cons e es ih =>
    obtain ⟨hfits,hrest⟩ := run_cons_entry hrun
    obtain ⟨hnotin,hnodup⟩ := List.nodup_cons.mp hv.nodup
    have hvalid : ValidBatch s es :=
      ⟨hnodup,fun b hb => hv.known b (List.mem_cons_of_mem _ hb)⟩
    rw [newRecvs_cons hrest]
    by_cases he : e.fd = s.serverFd
    · -- the one entry of the listening socket: the later ones are for clients
      have hclients : ∀ b ∈ es, b.fd ≠ s.serverFd := by
        intro b hb hbs
        exact hnotin (by rw [he,← hbs]; exact List.mem_map_of_mem hb)
      have htail : NoReuse s es := by
        refine List.Pairwise.imp_of_mem (fun {a b} ha _ _ hfd => ?_) (List.pairwise_map.mp hnodup)
        exact absurd hfd (hclients a ha)
      obtain ⟨b,hb,answer,ha,hr,hfd⟩ : ∃ b ∈ es, ∃ answer ∈ e.accept,
          answer.registers = true ∧ answer.fd = b.fd := by
        by_contra hnone
        refine hreuse (List.pairwise_cons.mpr ⟨fun b hb _ answer ha hr hfd => ?_,htail⟩)
        exact hnone ⟨b,hb,answer,ha,hr,hfd⟩
      have hknown := (hvalid.known b hb).resolve_left (hclients b hb)
      obtain ⟨r,hmem,hne⟩ := recv_of_reuse hs hu hshrinks hfits he (Option.mem_def.mp ha) hr hb hfd
        hclients hknown hrest
      exact ⟨r,List.mem_append_right _ hmem,hne⟩
    · have hnext := hshrinks.trans (handleEntry_shrinks (by rw [hshrinks.serverFd]; exact he))
      have htail : ¬ NoReuse s es := by
        intro hno
        exact hreuse (List.pairwise_cons.mpr ⟨fun b _ hfd => absurd hfd he,hno⟩)
      obtain ⟨r,hr,hne⟩ := ih hvalid (fdInv_event.handleEntry hfits hu) hnext htail hrest
      exact ⟨r,List.mem_append_right _ hr,hne⟩

/-- Handling a batch in any reachable state, every `recv` is from the connection that was open
under its number when `epoll_wait` returned, exactly when no connection accepted and registered
in the batch gets the number of an entry still to come. -/
theorem batch_recv_iff (h : (serving (fun _ => True)).Reachable s) (hv : ValidBatch s es)
    (hrun : (serving (fun _ => True)).run es s = some t) :
    (∀ r ∈ newRecvs s t, r.2 = s.fds r.1) ↔ NoReuse s es := by
  have hs : FdInv s := fdInv_event.reachable (fun users disk fd _ => boot_fdInv users disk fd) h
  constructor
  · intro hall
    by_contra hreuse
    obtain ⟨r,hr,hne⟩ := bad_recv_of_reuse hs hv hs (Shrinks.refl s) hreuse hrun
    exact hne (hall r hr)
  · intro hno
    exact recvs_of_noReuse hs rfl (fun _ _ => Or.inl rfl) hno hrun

instance (s : Server) (es : List Entry) : Decidable (ValidBatch s es) :=
  decidable_of_iff ((es.map Entry.fd).Nodup ∧
    ∀ e ∈ es, e.fd = s.serverFd ∨ (s.fds e.fd).isSome = true)
    ⟨fun h => ⟨h.1,h.2⟩,fun h => ⟨h.nodup,h.known⟩⟩

instance (s : Server) (es : List Entry) : Decidable (NoReuse s es) := by
  unfold NoReuse
  infer_instance

/-- The admin is on the admin page under descriptor 5, and bob in the menu under 6. -/
def adminAndBob : List Entry :=
  [.connection 5,.lines 5 "ahmet\na\n" steadyEnv,.connection 6,.lines 6 "bob\n" steadyEnv]

/-- The admin removes bob, a connection is accepted under `fd`, and then the entry for bob's
descriptor is handled. -/
def removeThenAccept (fd : ℤ) : List Entry :=
  [.lines 5 "d 2\n" steadyEnv,.connection fd,.lines 6 "eve\n" steadyEnv]

theorem batch_recv_other_number : ∃ s t, (serving (fun _ => True)).Reachable s ∧
    (serving (fun _ => True)).run (removeThenAccept 7) s = some t ∧
      ∀ r ∈ newRecvs s t, r.2 = s.fds r.1 := by
  have hstart : (serving (fun _ => True)).Reachable firstServer := .init ⟨_,_,_,trivial,rfl⟩
  have hfacts : ((serving (fun _ => True)).run adminAndBob firstServer).map (fun s =>
      (decide (ValidBatch s (removeThenAccept 7)),decide (NoReuse s (removeThenAccept 7)),
        ((serving (fun _ => True)).run (removeThenAccept 7) s).isSome)) =
      some (true,true,true) := by decide
  obtain ⟨s,hs,hs'⟩ := Option.map_eq_some_iff.mp hfacts
  obtain ⟨hvalid,hno,hrun⟩ : ValidBatch s (removeThenAccept 7) ∧
      NoReuse s (removeThenAccept 7) ∧
        ((serving (fun _ => True)).run (removeThenAccept 7) s).isSome = true := by
    simpa using hs'
  obtain ⟨t,ht⟩ := Option.isSome_iff_exists.mp hrun
  have hreach := Machine.Reachable.of_run hstart hs
  exact ⟨s,t,hreach,ht,(batch_recv_iff hreach hvalid ht).mpr hno⟩

/-- The accepted connection gets the number of bob's, which the removal has closed: the entry
for bob's data receives from the newcomer. -/
theorem batch_recv_same_number : ¬ ∀ s es t, (serving (fun _ => True)).Reachable s →
    ValidBatch s es → (serving (fun _ => True)).run es s = some t →
      ∀ r ∈ newRecvs s t, r.2 = s.fds r.1 := by
  intro hall
  have hstart : (serving (fun _ => True)).Reachable firstServer := .init ⟨_,_,_,trivial,rfl⟩
  have hfacts : ((serving (fun _ => True)).run adminAndBob firstServer).map (fun s =>
      (decide (ValidBatch s (removeThenAccept 6)),
        ((serving (fun _ => True)).run (removeThenAccept 6) s).map (fun t =>
          decide (∀ r ∈ newRecvs s t, r.2 = s.fds r.1)))) = some (true,some false) := by decide
  obtain ⟨s,hs,hs'⟩ := Option.map_eq_some_iff.mp hfacts
  obtain ⟨hvalid,t,ht,hbad⟩ : ValidBatch s (removeThenAccept 6) ∧ ∃ t,
      (serving (fun _ => True)).run (removeThenAccept 6) s = some t ∧
        ¬ ∀ r ∈ newRecvs s t, r.2 = s.fds r.1 := by
    rw [Prod.mk.injEq,Option.map_eq_some_iff] at hs'
    obtain ⟨hvalid,t,ht,hbad⟩ := hs'
    exact ⟨of_decide_eq_true hvalid,t,ht,of_decide_eq_false hbad⟩
  exact hbad (hall s _ t (Machine.Reachable.of_run hstart hs) hvalid ht)

end Batches

end NetLab.Chat
