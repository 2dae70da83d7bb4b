import NetLab.Foundation.Sockets
import NetLab.Chat.Calls
import NetLab.Chat.Descriptors

/-! The connections of the chat server as sockets with line buffers. -/
namespace NetLab.Chat

def Client.socket (c : Client) : Socket := ⟨c.active,c.fd,c.inputBuffer⟩

def Server.sockets (s : Server) : Sockets maxClients where
  slots i := (s.clients i).socket
  conns := s.fds
  accepted := s.accepted

section Sockets

variable {s t : Server} {i : Slot} {closed : Option Slot}

theorem SameSocket.socket {c c' : Client} (h : SameSocket c c') : c'.socket = c.socket := by
  obtain ⟨hactive,hfd,hbuffer⟩ := h
  simp only [Client.socket,hactive,hfd,hbuffer]

theorem setClient_sockets (s : Server) (i : Slot) (client : Client) :
    (s.setClient i client).sockets =
      { s.sockets with slots := Function.update s.sockets.slots i client.socket } := by
  have hslots : (s.setClient i client).sockets.slots =
      Function.update s.sockets.slots i client.socket := by
    funext j
    change ((s.setClient i client).clients j).socket = _
    by_cases hj : j = i
    · rw [hj,Server.setClient_clients_self,Function.update_self]
    · rw [Server.setClient_clients_of_ne _ _ hj,Function.update_of_ne hj]
      rfl
  rw [← hslots]
  rfl

theorem setBuffer_sockets (s : Server) (i : Slot) (buffer : Bytes) :
    (s.setClient i { s.clients i with inputBuffer := buffer }).sockets =
      s.sockets.setBuffer i buffer := setClient_sockets s i _

theorem disconnectClient_sockets (h : (s.clients i).active = true) :
    (s.disconnectClient i).sockets = s.sockets.close i := by
  rw [disconnectClient_eq h,setClient_sockets]
  rfl

/-- Closing one connection, or none, as the sockets see it. -/
theorem Closing.sockets (h : Closing s t closed) : t.sockets = s.sockets ∨
    ∃ j, (s.sockets.slots j).active = true ∧ t.sockets = s.sockets.close j := by
  cases closed with
  | none =>
    left
    have hslots : t.sockets.slots = s.sockets.slots :=
      funext (fun j => (h.kept j (by simp)).socket)
    change Sockets.mk t.sockets.slots t.fds t.accepted = s.sockets
    rw [hslots,h.fds,h.accepted]
    rfl
  | some j =>
    obtain ⟨hactive,hfree⟩ := h.free j rfl
    refine Or.inr ⟨j,hactive,?_⟩
    have hslots : t.sockets.slots = Function.update s.sockets.slots j .free := by
      funext k
      by_cases hk : k = j
      · rw [hk,Function.update_self]
        exact congrArg Client.socket hfree
      · rw [Function.update_of_ne hk]
        exact (h.kept k (fun heq => hk (Option.some.inj heq).symm)).socket
    change Sockets.mk t.sockets.slots t.fds t.accepted = _
    rw [hslots,h.fds,h.accepted]
    rfl

theorem reader_reads (i : Slot) : Reads (reader i) Server.sockets i where
  isOpen _ := rfl
  buffer _ := rfl
  setBuffer s buffer := setBuffer_sockets s i buffer
  handle env s line hopen := by
    obtain ⟨u,hu,htells⟩ := processLine_effect s env i (zero_not_mem_cstr line)
    obtain ⟨closed,hclosed⟩ := hu.closing hopen
    exact (hclosed.tells htells).sockets
  closed env s line := processLine_closesOwn s env i (cstr line)

theorem handleAccept_sockets {answer : AcceptAnswer} (hunused : s.fds answer.fd = none) :
    Relation.ReflTransGen Sockets.Step s.sockets (s.handleAccept answer).sockets := by
  simp only [Server.handleAccept]
  cases hi : (s.openFd answer.fd).findFreeClientSlot with
  | none =>
    have hrefused : ((s.openFd answer.fd).closeFd answer.fd).sockets = s.sockets.refuse := by
      change Sockets.mk s.sockets.slots ((s.openFd answer.fd).closeFd answer.fd).fds _ = _
      rw [refuse_fds hunused]
      rfl
    have hstep := Sockets.Step.refuse s.sockets
    rw [← hrefused] at hstep
    exact .single hstep
  | some i =>
    have hconnected : ((s.openFd answer.fd).setClient i (Client.connected answer.fd)).sockets =
        s.sockets.connect i answer.fd := setClient_sockets _ i _
    refine Sockets.accepted_steps (findFreeClientSlot_some hi) hunused ?_
    dsimp only
    split
    · have hactive : (((s.openFd answer.fd).setClient i (Client.connected answer.fd)).clients
          i).active = true := by
        rw [Server.setClient_clients_self]
        rfl
      right
      rw [disconnectClient_sockets hactive,hconnected]
    · exact .inl hconnected

end Sockets

/-- The bytes that an event brings, and the slot they come from. -/
def Server.received (s : Server) (e : Entry) : Option (Slot × Bytes) :=
  if e.fd = s.serverFd then none
  else
    match s.findClientByFd e.fd,e.recv with
    | some i,.data bytes _ => some (i,bytes)
    | _,_ => none

/-- The line of a call, and the bytes it leaves in the buffer. -/
def LineCall.taken (c : LineCall) : Bytes × Bytes := (c.line,c.client.inputBuffer)

/-- The chat server reads its connections through buffers of 4096 bytes. -/
def socketServer : SocketServer Server Entry maxClients where
  machine := chat
  sockets := Server.sockets
  recv := Server.received
  taken s e := (s.calls e).map LineCall.taken
  cap := inputBufferSize
  maxChunk := 1024

section Events

variable {s : Server} {e : Entry} {i : Slot} {bytes : Bytes}

/-- An event with data is one of a connected client. -/
theorem received_some (h : s.received e = some (i,bytes)) : e.fd ≠ s.serverFd ∧
    s.findClientByFd e.fd = some i ∧ ∃ envs, e.recv = .data bytes envs := by
  unfold Server.received at h
  split at h
  · contradiction
  · next he =>
    split at h
    · next j data envs hj hrecv =>
      obtain ⟨rfl,rfl⟩ : j = i ∧ data = bytes := by simpa using h
      exact ⟨he,hj,envs,hrecv⟩
    · contradiction

theorem handleEntry_received {envs : ℕ → LineEnv} (he : e.fd ≠ s.serverFd)
    (hi : s.findClientByFd e.fd = some i) (hrecv : e.recv = .data bytes envs) :
    s.handleEntry e = (s.noteRecv e.fd).handleData i bytes envs ∧
      s.calls e = (s.noteRecv e.fd).dataCalls i bytes envs := by
  simp only [Server.handleEntry,Server.calls,if_neg he,hi,hrecv]
  exact ⟨rfl,trivial⟩

/-- A chunk that fits the buffer is read by the loop. -/
theorem handleData_fits (envs : ℕ → LineEnv)
    (h : ¬ inputBufferSize ≤ (s.clients i).inputBuffer.length+bytes.length) :
    let data := (s.clients i).inputBuffer ++ bytes
    s.handleData i bytes envs =
        (reader i).loop envs data.length ((reader i).setBuffer s data) ∧
      (s.dataCalls i bytes envs).map LineCall.taken =
        ((reader i).calls envs data.length ((reader i).setBuffer s data)).map
          (LineReader.Call.taken (reader i)) := by
  dsimp only
  rw [Server.handleData,Server.dataCalls]
  simp only [if_neg h,lineLoop_eq_loop,List.map_map]
  exact ⟨rfl,rfl⟩

/-- An event without data only opens and closes connections. -/
theorem handleEntry_sockets (hfits : e.Fits s) (h : s.received e = none) :
    Relation.ReflTransGen Sockets.Step s.sockets (s.handleEntry e).sockets := by
  unfold Server.handleEntry
  by_cases he : e.fd = s.serverFd
  · rw [if_pos he]
    cases ha : e.accept with
    | none => exact .refl
    | some answer => exact handleAccept_sockets (hfits.1 answer ha).2.2
  · rw [if_neg he]
    cases hi : s.findClientByFd e.fd with
    | none => exact .refl
    | some i =>
      have hactive := (findClientByFd_some hi).1
      have hclosed : Relation.ReflTransGen Sockets.Step s.sockets
          ((s.noteRecv e.fd).disconnectClient i).sockets := by
        rw [disconnectClient_sockets (s := s.noteRecv e.fd) hactive]
        exact .single (.close _ i hactive)
      cases hrecv : e.recv with
      | data bytes envs => simp [Server.received,he,hi,hrecv] at h
      | fin => exact hclosed
      | interrupted => exact .refl
      | error => exact hclosed

theorem socketServer_lawful : socketServer.Lawful where
  init s h := by
    obtain ⟨users,disk,serverFd,-,rfl⟩ := h
    rfl
  quiet s e t ht h := by
    obtain ⟨hfits,rfl⟩ := serving_step.mp ht
    exact handleEntry_sockets hfits h
  size s e t i bytes ht h := by
    obtain ⟨hfits,-⟩ := serving_step.mp ht
    obtain ⟨-,hi,envs,hrecv⟩ := received_some h
    have hsize := hfits.2
    rw [hrecv] at hsize
    exact ⟨List.ne_nil_of_length_pos hsize.1,hsize.2,(findClientByFd_some hi).1⟩
  refused s e t i bytes ht h hcap := by
    obtain ⟨-,rfl⟩ := serving_step.mp ht
    obtain ⟨he,hi,envs,hrecv⟩ := received_some h
    obtain ⟨hentry,hcalls⟩ := handleEntry_received he hi hrecv
    have hlong : inputBufferSize ≤ ((s.noteRecv e.fd).clients i).inputBuffer.length+bytes.length :=
      hcap
    change (s.calls e).map _ = [] ∧ (s.handleEntry e).sockets = s.sockets.setBuffer i []
    rw [hentry,hcalls,Server.handleData,Server.dataCalls]
    simp only [if_pos hlong]
    exact ⟨rfl,setBuffer_sockets (((s.noteRecv e.fd).sendText _ _)) i []⟩
  accepted s e t i bytes ht h hcap := by
    obtain ⟨-,rfl⟩ := serving_step.mp ht
    obtain ⟨he,hi,envs,hrecv⟩ := received_some h
    obtain ⟨hentry,hcalls⟩ := handleEntry_received he hi hrecv
    obtain ⟨hloop,htaken⟩ := handleData_fits (s := s.noteRecv e.fd) (i := i) envs hcap
    have hchunk := (reader_reads i).chunk envs (s := s.noteRecv e.fd) (findClientByFd_some hi).1
      ((s.clients i).inputBuffer ++ bytes) rfl rfl
    change Relation.ReflTransGen (Sockets.Work i) s.sockets (s.handleEntry e).sockets ∧
      (s.calls e).map LineCall.taken <+: _ ∧ ((s.calls e).map LineCall.taken).head? = _ ∧
      ((((s.handleEntry e).sockets.slots i).active = true → (s.calls e).map LineCall.taken = _ ∧
        ((s.handleEntry e).sockets.slots i).buffer = _))
    rw [hentry,hcalls,hloop,htaken]
    exact hchunk

end Events

end NetLab.Chat
