import NetLab.GroupChat.Authors

/-! What the group chat server sends. Its texts are C strings, of which `strlen` is the length, and
what has been sent stays sent. -/
namespace NetLab.GroupChat

/-- The names and the texts sent hold no NUL. -/
structure Server.Clean (s : Server) : Prop where
  names : ∀ i, 0 ∉ (s.clients i).username
  sent : ∀ p ∈ s.sent, 0 ∉ p.2

/-- A later state: clean if the earlier one is, with all that has been sent before. -/
structure Server.Goes (s t : Server) : Prop where
  clean : s.Clean → t.Clean
  sent : s.sent <+: t.sent

namespace Server

variable {s t u : Server} {i : Slot} {text line : Bytes} {fd : ℤ}

theorem Goes.refl (s : Server) : s.Goes s := ⟨id,List.prefix_rfl⟩

theorem Goes.trans (h : s.Goes t) (h' : t.Goes u) : s.Goes u :=
  ⟨h'.clean ∘ h.clean,h.sent.trans h'.sent⟩

theorem goes_quiet (hclients : t.clients = s.clients) (hsent : t.sent = s.sent) : s.Goes t where
  clean h := ⟨by rw [hclients]; exact h.names,by rw [hsent]; exact h.sent⟩
  sent := by rw [hsent]

theorem goes_sendAll (s : Server) {texts : List (ℤ × Bytes)}
    (h : s.Clean → ∀ p ∈ texts, 0 ∉ p.2) : s.Goes (s.sendAll texts) where
  clean hs := ⟨hs.names,fun p hp => (List.mem_append.mp hp).elim (hs.sent p) (h hs p)⟩
  sent := List.prefix_append _ _

theorem goes_sendText (s : Server) (fd : ℤ) (h : s.Clean → 0 ∉ text) : s.Goes (s.sendText fd text) :=
  s.goes_sendAll fun hs p hp => by
    obtain rfl := List.mem_singleton.mp hp
    exact h hs

theorem goes_broadcastMessage (s : Server) (fd : ℤ) (h : s.Clean → 0 ∉ text) :
    s.Goes (s.broadcastMessage text fd) :=
  s.goes_sendAll fun hs p hp => by
    obtain ⟨fd,-,rfl⟩ := List.mem_map.mp hp
    exact h hs

theorem goes_setClient (s : Server) (i : Slot) {client : Client} (h : s.Clean → 0 ∉ client.username) :
    s.Goes (s.setClient i client) where
  clean hs := by
    refine ⟨fun j => ?_,hs.sent⟩
    by_cases hj : j = i
    · subst hj
      rw [setClient_clients_self]
      exact h hs
    · rw [setClient_clients_of_ne _ _ hj]
      exact hs.names j
  sent := List.prefix_rfl

theorem goes_setBuffer (s : Server) (i : Slot) (buffer : Bytes) :
    s.Goes ((reader i).setBuffer s buffer) := s.goes_setClient i fun hs => hs.names i

theorem goes_disconnectClient (s : Server) (i : Slot) : s.Goes (s.disconnectClient i) := by
  unfold disconnectClient
  split_ifs
  · exact .refl s
  · exact (goes_quiet rfl rfl : s.Goes (s.closeFd _)).trans
      (goes_setClient _ i fun _ => List.not_mem_nil)

theorem zero_not_mem_snprintf {size : ℕ} (h : 0 ∉ text) : 0 ∉ snprintf size text :=
  fun hmem => h (List.mem_of_mem_take hmem)

theorem zero_not_mem_decimal (n : ℤ) : 0 ∉ decimal n := by
  intro h
  have hdigits : ∀ n : ℕ, 0 ∉ natDecimal n := by
    intro n hmem
    have hdigit := isDigit_of_mem_natDecimal hmem
    revert hdigit
    decide
  unfold decimal at h
  split_ifs at h
  · rcases List.mem_cons.mp h with hminus | hmem
    · revert hminus
      decide
    · exact hdigits _ hmem
  · exact hdigits _ h

theorem zero_not_mem_userText (hs : s.Clean) (own : Slot) (number : ℕ) (i : Slot) :
    0 ∉ s.userText own number i := by
  have hdot : (0 : UInt8) ∉ ascii ". " := by decide
  have hyou : (0 : UInt8) ∉ ascii " (you)" := by decide
  have hend : (0 : UInt8) ∉ ascii "\n" := by decide
  refine zero_not_mem_snprintf ?_
  split_ifs
  · simp [zero_not_mem_decimal,hs.names i,hdot,hyou,hend]
  · simp [zero_not_mem_decimal,hs.names i,hdot,hend]

theorem goes_showUserList (s : Server) (i : Slot) : s.Goes (s.showUserList i) := by
  have hfirst : (0 : UInt8) ∉ ascii "\n===== ONLINE USERS =====\n" := by decide
  have hlast : (0 : UInt8) ∉ ascii "========================\n" := by decide
  refine s.goes_sendAll fun hs p hp => ?_
  obtain ⟨text,htext,rfl⟩ := List.mem_map.mp hp
  rcases List.mem_cons.mp htext with rfl | htext
  · exact hfirst
  rcases List.mem_append.mp htext with htext | htext
  · obtain ⟨q,-,rfl⟩ := List.mem_map.mp htext
    exact zero_not_mem_userText hs i _ _
  · obtain rfl := List.mem_singleton.mp htext
    exact hlast

theorem goes_processLogin (s : Server) (i : Slot) (hline : 0 ∉ line) :
    s.Goes (s.processLogin i line) := by
  have hname : 0 ∉ beforeReturn line := fun h => hline (mem_of_mem_beforeReturn h)
  have htaken : 0 ∉ (beforeReturn line).take (usernameSize-1) :=
    fun h => hname (List.mem_of_mem_take h)
  simp only [processLogin]
  split_ifs
  · exact s.goes_sendText _ fun _ => by decide
  · exact s.goes_sendText _ fun _ => by decide
  · exact s.goes_sendText _ fun _ => by decide
  · have hstart : (0 : UInt8) ∉ ascii "\n[SYSTEM] " := by decide
    have hend : (0 : UInt8) ∉ ascii " joined the group.\n" := by decide
    refine Goes.trans ?_ (goes_broadcastMessage _ _ fun _ => zero_not_mem_snprintf ?_)
    · refine Goes.trans ?_ (goes_showUserList _ i)
      refine Goes.trans ?_ (goes_sendText _ _ fun _ => by decide)
      exact s.goes_setClient i fun _ => htaken
    · simp only [List.mem_append,htaken,hstart,hend,or_self,not_false_eq_true]

theorem goes_processGroupMessage (s : Server) (i : Slot) (hline : 0 ∉ line) :
    s.Goes (s.processGroupMessage i line).1 := by
  simp only [processGroupMessage]
  split_ifs
  · exact s.goes_showUserList i
  · have hstart : (0 : UInt8) ∉ ascii "\n[SYSTEM] " := by decide
    have hend : (0 : UInt8) ∉ ascii " left the group.\n" := by decide
    refine Goes.trans ?_ (goes_disconnectClient _ i)
    refine Goes.trans ?_ (goes_sendText _ _ fun _ => by decide)
    refine s.goes_broadcastMessage _ fun hs => zero_not_mem_snprintf ?_
    simp only [List.mem_append,hs.names i,hstart,hend,or_self,not_false_eq_true]
  · exact .refl s
  · refine s.goes_broadcastMessage _ fun hs => zero_not_mem_snprintf ?_
    have hcolon : (0 : UInt8) ∉ ascii ": " := by decide
    have hend : (0 : UInt8) ∉ ascii "\n" := by decide
    simp only [List.mem_append,hs.names i,hline,hcolon,hend,or_self,not_false_eq_true]

theorem goes_processLine (s : Server) (i : Slot) (hline : 0 ∉ line) :
    s.Goes (s.processLine i line).1 := by
  have hbefore : 0 ∉ beforeReturn line := fun h => hline (mem_of_mem_beforeReturn h)
  simp only [processLine]
  split_ifs
  · exact s.goes_processLogin i hbefore
  · exact s.goes_processGroupMessage i hbefore

theorem goes_loop (envs : ℕ → Unit) (i : Slot) (rounds : ℕ) (s : Server) :
    s.Goes ((reader i).loop envs rounds s) := by
  induction rounds generalizing s with
  | zero => exact .refl s
  | succ rounds ih =>
    rw [LineReader.loop]
    cases hopen : (reader i).isOpen s with
    | false => exact .refl s
    | true =>
      cases firstLine ((reader i).buffer s) with
      | none => exact .refl s
      | some p =>
        obtain ⟨line,rest⟩ := p
        have hbuffer := s.goes_setBuffer i rest
        have hline := goes_processLine ((reader i).setBuffer s rest) i (zero_not_mem_cstr line)
        simp only [Bool.not_true,Bool.false_eq_true,if_false]
        split
        · exact hbuffer.trans hline
        · exact (hbuffer.trans hline).trans (ih _)

theorem goes_handleAccept (s : Server) (answer : AcceptAnswer) : s.Goes (s.handleAccept answer) := by
  have hopened : s.Goes (s.openFd answer.fd) := goes_quiet rfl rfl
  refine hopened.trans ?_
  simp only [handleAccept]
  cases (s.openFd answer.fd).findFreeClient with
  | none =>
    exact (goes_sendText _ _ fun _ => by decide).trans (goes_quiet rfl rfl)
  | some i =>
    have hseat : (s.openFd answer.fd).Goes
        ((s.openFd answer.fd).setClient i (Client.connected answer.fd)) :=
      goes_setClient _ i fun _ => List.not_mem_nil
    refine hseat.trans ?_
    dsimp only
    split
    · exact goes_disconnectClient _ i
    · exact goes_sendText _ _ fun _ => by decide

theorem goes_handleFin (s : Server) (i : Slot) (fd : ℤ) : s.Goes (s.handleFin i fd) := by
  simp only [handleFin]
  split
  · refine (s.goes_broadcastMessage fd fun hs => zero_not_mem_snprintf ?_).trans
      (goes_disconnectClient _ i)
    have hstart : (0 : UInt8) ∉ ascii "\n[SYSTEM] " := by decide
    have hend : (0 : UInt8) ∉ ascii " disconnected.\n" := by decide
    simp only [List.mem_append,hs.names i,hstart,hend,or_self,not_false_eq_true]
  · exact goes_disconnectClient s i

theorem goes_handleData (s : Server) (i : Slot) (fd : ℤ) (bytes : Bytes) :
    s.Goes (s.handleData i fd bytes) := by
  simp only [handleData]
  split
  · exact (s.goes_sendText fd fun _ => by decide).trans (goes_setClient _ i fun hs => hs.names i)
  · exact (s.goes_setBuffer i _).trans (goes_loop _ i _ _)

theorem goes_handleEntry (s : Server) (e : Entry) : s.Goes (s.handleEntry e) := by
  unfold handleEntry
  split
  · cases e.accept with
    | none => exact .refl s
    | some answer => exact s.goes_handleAccept answer
  · cases s.findClientByFd e.fd with
    | none => exact .refl s
    | some i =>
      cases e.recv with
      | interrupted => exact .refl s
      | error => exact s.goes_disconnectClient i
      | fin => exact s.goes_handleFin i e.fd
      | data bytes => exact s.goes_handleData i e.fd bytes

end Server

/-- In every state that is reached the texts sent are C strings. -/
theorem reachable_clean {s : Server} (hs : groupChat.Reachable s) : s.Clean := by
  refine hs.invariant (I := Server.Clean) ?_ ?_
  · rintro s ⟨serverFd,rfl⟩
    exact ⟨fun _ => List.not_mem_nil,fun _ hp => by contradiction⟩
  · intro s e t _ hclean _ ht
    obtain ⟨-,rfl⟩ := groupChat_step.mp ht
    exact (s.goes_handleEntry e).clean hclean

end NetLab.GroupChat
