import NetLab.Foundation.Sockets
import NetLab.GroupChat.Server

/-! The connections of the group chat server as sockets with line buffers. -/
namespace NetLab.GroupChat

def Client.socket (c : Client) : Socket := ⟨c.active,c.fd,c.inputBuffer⟩

def Server.sockets (s : Server) : Sockets maxClients where
  slots i := (s.clients i).socket
  conns := s.fds
  accepted := s.accepted

section Lines

variable {s : Server} {i : Slot}

theorem setClient_sockets (s : Server) (i : Slot) (client : Client) :
    (s.setClient i client).sockets =
      { s.sockets with slots := Function.update s.sockets.slots i client.socket } := by
  have hslots : (s.setClient i client).sockets.slots =
      Function.update s.sockets.slots i client.socket := by
    funext j
    change ((s.setClient i client).clients j).socket = _
    by_cases hj : j = i
    · rw [hj,Server.setClient_clients_self,Function.update_self]
    · rw [Server.setClient_clients_of_ne _ _ hj,Function.update_of_ne hj]
      rfl
  rw [← hslots]
  rfl

theorem setBuffer_sockets (s : Server) (i : Slot) (buffer : Bytes) :
    ((reader i).setBuffer s buffer).sockets = s.sockets.setBuffer i buffer :=
  setClient_sockets s i _

theorem disconnectClient_sockets (h : (s.clients i).active = true) :
    (s.disconnectClient i).sockets = s.sockets.close i := by
  rw [disconnectClient_eq h,setClient_sockets]
  rfl

/-- A login does not touch the connection of the slot. -/
theorem processLogin_sockets (s : Server) (i : Slot) (line : Bytes) :
    (s.processLogin i line).sockets = s.sockets := by
  simp only [Server.processLogin]
  split_ifs
  · rfl
  · rfl
  · rfl
  · change (s.setClient i _).sockets = s.sockets
    rw [setClient_sockets]
    change Sockets.mk (Function.update s.sockets.slots i (s.sockets.slots i)) _ _ = s.sockets
    rw [Function.update_eq_self]

/-- A line leaves the connections as they are, or closes that of its client and says so. -/
theorem processLine_sockets (hactive : (s.clients i).active = true) (line : Bytes) :
    ((s.processLine i line).1.sockets = s.sockets ∧ (s.processLine i line).2 = true) ∨
      (s.processLine i line).1.sockets = s.sockets.close i := by
  simp only [Server.processLine]
  split_ifs
  · exact Or.inl ⟨processLogin_sockets s i _,rfl⟩
  · simp only [Server.processGroupMessage]
    split_ifs
    · exact Or.inl ⟨rfl,rfl⟩
    · right
      change ((Server.sendText _ _ _).disconnectClient i).sockets = _
      rw [disconnectClient_sockets (by exact hactive)]
      rfl
    · exact Or.inl ⟨rfl,rfl⟩
    · exact Or.inl ⟨rfl,rfl⟩

theorem processLine_closed (line : Bytes) (h : (s.processLine i line).2 = false) :
    ((s.processLine i line).1.clients i).active = false := by
  simp only [Server.processLine] at h ⊢
  split_ifs at h ⊢ with hlogin
  simp only [Server.processGroupMessage] at h ⊢
  split_ifs at h ⊢
  dsimp only
  by_cases hactive : (s.clients i).active = true
  · rw [disconnectClient_eq (by exact hactive),Server.setClient_clients_self]
    rfl
  · have hidle : ∀ t : Server, t.clients = s.clients → ((t.disconnectClient i).clients i).active = false := by
      intro t ht
      simp [Server.disconnectClient,ht,hactive]
    exact hidle _ rfl

theorem reader_reads (i : Slot) : Reads (reader i) Server.sockets i where
  isOpen _ := rfl
  buffer _ := rfl
  setBuffer s buffer := setBuffer_sockets s i buffer
  handle _ s line hopen := by
    rcases processLine_sockets hopen (cstr line) with ⟨hsame,-⟩ | hclosed
    · exact Or.inl hsame
    · exact Or.inr ⟨i,hopen,hclosed⟩
  closed _ s line h := processLine_closed (cstr line) h

theorem handleAccept_sockets {answer : AcceptAnswer} (hunused : s.fds answer.fd = none) :
    Relation.ReflTransGen Sockets.Step s.sockets (s.handleAccept answer).sockets := by
  simp only [Server.handleAccept]
  cases hi : (s.openFd answer.fd).findFreeClient with
  | none =>
    have hfds : ((s.openFd answer.fd).closeFd answer.fd).fds = s.fds := by
      change Function.update (Function.update s.fds answer.fd (some s.accepted)) answer.fd none = s.fds
      rw [Function.update_idem,← hunused,Function.update_eq_self]
    have hrefused : ((s.openFd answer.fd).closeFd answer.fd).sockets = s.sockets.refuse := by
      change Sockets.mk s.sockets.slots ((s.openFd answer.fd).closeFd answer.fd).fds _ = _
      rw [hfds]
      rfl
    have hstep := Sockets.Step.refuse s.sockets
    rw [← hrefused] at hstep
    exact .single hstep
  | some i =>
    have hconnected : ((s.openFd answer.fd).setClient i (Client.connected answer.fd)).sockets =
        s.sockets.connect i answer.fd := setClient_sockets _ i _
    refine Sockets.accepted_steps (findFreeClient_some hi) hunused ?_
    dsimp only
    split
    · have hactive : (((s.openFd answer.fd).setClient i (Client.connected answer.fd)).clients
          i).active = true := by
        rw [Server.setClient_clients_self]
        rfl
      right
      rw [disconnectClient_sockets hactive,hconnected]
    · exact .inl hconnected

theorem handleFin_sockets (hactive : (s.clients i).active = true) (fd : ℤ) :
    (s.handleFin i fd).sockets = s.sockets.close i := by
  simp only [Server.handleFin]
  split
  · rw [disconnectClient_sockets (by exact hactive)]
    rfl
  · exact disconnectClient_sockets hactive

end Lines

/-- The bytes that an event brings, and the slot they come from. -/
def Server.received (s : Server) (e : Entry) : Option (Slot × Bytes) :=
  if e.fd = s.serverFd then none
  else
    match s.findClientByFd e.fd,e.recv with
    | some i,.data bytes => some (i,bytes)
    | _,_ => none

/-- The calls of `process_line` that an event brings about. -/
def Server.calls (s : Server) (e : Entry) : List (LineReader.Call Server Unit × Slot) :=
  match s.received e with
  | none => []
  | some (i,bytes) =>
    if bufferSize ≤ (s.clients i).inputBuffer.length+bytes.length then []
    else
      let buffer := (s.clients i).inputBuffer ++ bytes
      ((reader i).calls (fun _ => ()) buffer.length ((reader i).setBuffer s buffer)).map
        (fun call => (call,i))

/-- The group chat server reads its connections through buffers of 4096 bytes. -/
def socketServer : SocketServer Server Entry maxClients where
  machine := groupChat
  sockets := Server.sockets
  recv := Server.received
  taken s e := (s.calls e).map (fun c => c.1.taken (reader c.2))
  cap := bufferSize
  maxChunk := 1024

section Events

variable {s : Server} {e : Entry} {i : Slot} {bytes : Bytes}

theorem received_some (h : s.received e = some (i,bytes)) : e.fd ≠ s.serverFd ∧
    s.findClientByFd e.fd = some i ∧ e.recv = .data bytes := by
  unfold Server.received at h
  split at h
  · contradiction
  · next he =>
    split at h
    · next j data hj hrecv =>
      obtain ⟨rfl,rfl⟩ : j = i ∧ data = bytes := by simpa using h
      exact ⟨he,hj,hrecv⟩
    · contradiction

theorem handleEntry_received (h : s.received e = some (i,bytes)) :
    s.handleEntry e = s.handleData i e.fd bytes := by
  obtain ⟨he,hi,hrecv⟩ := received_some h
  simp only [Server.handleEntry,if_neg he,hi,hrecv]

/-- An event without data only opens and closes connections. -/
theorem handleEntry_sockets (hfits : e.Fits s) (h : s.received e = none) :
    Relation.ReflTransGen Sockets.Step s.sockets (s.handleEntry e).sockets := by
  unfold Server.handleEntry
  by_cases he : e.fd = s.serverFd
  · rw [if_pos he]
    cases ha : e.accept with
    | none => exact .refl
    | some answer => exact handleAccept_sockets (hfits.1 answer ha).2.2
  · rw [if_neg he]
    cases hi : s.findClientByFd e.fd with
    | none => exact .refl
    | some i =>
      have hactive := (findClientByFd_some hi).1
      have hclosed : Relation.ReflTransGen Sockets.Step s.sockets (s.sockets.close i) :=
        .single (.close _ i hactive)
      cases hrecv : e.recv with
      | data bytes => simp [Server.received,he,hi,hrecv] at h
      | fin => rwa [← handleFin_sockets hactive e.fd] at hclosed
      | interrupted => exact .refl
      | error => rwa [← disconnectClient_sockets hactive] at hclosed

theorem socketServer_lawful : socketServer.Lawful where
  init s h := by
    obtain ⟨serverFd,rfl⟩ := h
    rfl
  quiet s e t ht h := by
    obtain ⟨hfits,rfl⟩ := groupChat_step.mp ht
    exact handleEntry_sockets hfits h
  size s e t i bytes ht h := by
    obtain ⟨hfits,-⟩ := groupChat_step.mp ht
    obtain ⟨-,hi,hrecv⟩ := received_some h
    have hsize := hfits.2
    rw [hrecv] at hsize
    exact ⟨List.ne_nil_of_length_pos hsize.1,hsize.2,(findClientByFd_some hi).1⟩
  refused s e t i bytes ht h hcap := by
    obtain ⟨-,rfl⟩ := groupChat_step.mp ht
    have hlong : bufferSize ≤ (s.clients i).inputBuffer.length+bytes.length := hcap
    change s.received e = _ at h
    change (s.calls e).map _ = [] ∧ (s.handleEntry e).sockets = s.sockets.setBuffer i []
    rw [handleEntry_received h,Server.handleData,Server.calls,h]
    simp only [if_pos hlong]
    exact ⟨rfl,setBuffer_sockets (s.sendText _ _) i []⟩
  accepted s e t i bytes ht h hcap := by
    obtain ⟨-,rfl⟩ := groupChat_step.mp ht
    have hshort : ¬ bufferSize ≤ (s.clients i).inputBuffer.length+bytes.length := hcap
    change s.received e = _ at h
    obtain ⟨-,hi,-⟩ := received_some h
    have hcalls : socketServer.taken s e = ((reader i).calls (fun _ => ())
        ((s.clients i).inputBuffer ++ bytes).length
        ((reader i).setBuffer s ((s.clients i).inputBuffer ++ bytes))).map
          (LineReader.Call.taken (reader i)) := by
      change (s.calls e).map _ = _
      rw [Server.calls,h]
      simp only [if_neg hshort,List.map_map]
      rfl
    have hnext : s.handleEntry e = (reader i).loop (fun _ => ())
        ((s.clients i).inputBuffer ++ bytes).length
        ((reader i).setBuffer s ((s.clients i).inputBuffer ++ bytes)) := by
      rw [handleEntry_received h,Server.handleData]
      simp only [if_neg hshort]
    rw [hcalls,hnext]
    exact (reader_reads i).chunk (fun _ => ()) (findClientByFd_some hi).1 _ rfl rfl

end Events

end NetLab.GroupChat
