import NetLab.GroupChat.Acts

/-! Events and runs of the group chat as traces of acts. Between two acts the main loop reads,
accepts and refuses connections, which nobody in the room notices. -/
namespace NetLab.GroupChat

/-- What the main loop itself sends. -/
def notices : List Bytes :=
  [ascii "Enter your username: ",ascii "Server is full.\n",ascii "Input too long.\n"]

/-- A step of the main loop between two acts. -/
inductive Idle : Server → Server → Prop
  | say (s : Server) (fd : ℤ) (text : Bytes) (h : text ∈ notices) : Idle s (s.sendText fd text)
  | buffer (s : Server) (i : Slot) (buffer : Bytes) : Idle s ((reader i).setBuffer s buffer)
  | close (s : Server) (i : Slot) (hactive : (s.clients i).active = true) (hout : s.room i = none) :
    Idle s (s.disconnectClient i)
  | connect (s : Server) (i : Slot) (fd : ℤ) (hfree : (s.clients i).active = false)
    (hunused : s.fds fd = none) : Idle s ((s.openFd fd).setClient i (Client.connected fd))
  | openFd (s : Server) (fd : ℤ) (hunused : s.fds fd = none) :
    Idle s ((s.openFd fd).closeFd fd)

/-- From the first state to the last, with these acts in this order. -/
inductive Trace : Server → List Act → Server → Prop
  | refl (s : Server) : Trace s [] s
  | idle {s t u : Server} {acts : List Act} (h : Idle s t) (ht : Trace t acts u) : Trace s acts u
  | act {u : Server} {acts : List Act} (a : Act) (h : a.Legal) (ht : Trace a.after acts u) :
    Trace a.before (a::acts) u

section Traces

variable {s t u : Server} {i j : Slot} {name : Bytes} {as bs : List Act} {a : Act}

theorem Trace.single (h : Idle s t) : Trace s [] t := .idle h (.refl t)

theorem Trace.trans (h : Trace s as t) (h' : Trace t bs u) : Trace s (as ++ bs) u := by
  induction h with
  | refl => exact h'
  | idle h _ ih => exact .idle h (ih h')
  | act a h _ ih => exact .act a h (ih h')

/-- Between two acts nobody comes or goes. -/
theorem Idle.room (h : Idle s t) : t.room = s.room := by
  cases h with
  | say fd text htext => rfl
  | buffer i buffer =>
    change (s.setClient i _).room = _
    rw [setClient_room]
    exact Function.update_eq_self i s.room
  | close i hactive hout => rw [disconnectClient_room hactive,← hout,Function.update_eq_self]
  | connect i fd hfree hunused =>
    rw [setClient_room]
    have hout : s.room i = none := by simp [Server.room,hfree]
    change Function.update s.room i none = s.room
    rw [← hout,Function.update_eq_self]
  | openFd fd hunused => rfl

theorem Idle.sockets (h : Idle s t) (hs : s.sockets.Consistent) : t.sockets.Consistent := by
  cases h with
  | say fd text htext => exact hs
  | buffer i buffer =>
    rw [setBuffer_sockets]
    exact hs.setBuffer i buffer
  | close i hactive hout =>
    rw [disconnectClient_sockets hactive]
    exact hs.close hactive
  | connect i fd hfree hunused =>
    have heq : ((s.openFd fd).setClient i (Client.connected fd)).sockets = s.sockets.connect i fd :=
      setClient_sockets _ i _
    rw [heq]
    exact hs.connect hfree hunused
  | openFd fd hunused =>
    have hfds : ((s.openFd fd).closeFd fd).fds = s.fds := by
      change Function.update (Function.update s.fds fd (some s.accepted)) fd none = s.fds
      rw [Function.update_idem,← hunused,Function.update_eq_self]
    have heq : ((s.openFd fd).closeFd fd).sockets = s.sockets.refuse := by
      change Sockets.mk s.sockets.slots ((s.openFd fd).closeFd fd).fds _ = _
      rw [hfds]
      rfl
    rw [heq]
    exact (Sockets.Step.refuse _).consistent hs

theorem Idle.sound (h : Idle s t) (hs : s.Sound) : t.Sound where
  sockets := h.sockets hs.sockets
  names := by rw [h.room]; exact hs.names
  distinct := by rw [h.room]; exact hs.distinct

/-- A notice at most is sent. -/
theorem Idle.sent (h : Idle s t) (fd : ℤ) : s.sent <+: t.sent ∧
    ∀ text ∈ newTexts s t fd, text ∈ notices := by
  have hquiet : ∀ u : Server, u.sent = s.sent →
      s.sent <+: u.sent ∧ ∀ text ∈ newTexts s u fd, text ∈ notices := by
    intro u hu
    refine ⟨hu ▸ List.prefix_rfl,?_⟩
    have heq : u.sent = s.sent ++ [] := by rw [hu,List.append_nil]
    rw [newTexts_eq heq]
    simp
  cases h with
  | say fd' text htext =>
    refine ⟨List.prefix_append _ _,fun sent hsent => ?_⟩
    have heq : (s.sendText fd' text).sent = s.sent ++ [(fd',text)] := rfl
    rw [newTexts_eq heq,textsTo] at hsent
    obtain ⟨p,hp,rfl⟩ := List.mem_map.mp hsent
    obtain rfl := List.mem_singleton.mp (List.mem_of_mem_filter hp)
    exact htext
  | buffer i buffer => exact hquiet _ rfl
  | close i hactive hout => exact hquiet _ (by rw [disconnectClient_eq hactive]; rfl)
  | connect i fd hfree hunused => exact hquiet _ rfl
  | openFd fd hunused => exact hquiet _ rfl

/-- A member keeps its descriptor. -/
theorem Idle.fd (h : Idle s t) (hin : (s.room i).isSome = true) :
    (t.clients i).fd = (s.clients i).fd := by
  cases h with
  | say fd text htext => rfl
  | buffer j buffer =>
    by_cases hij : i = j
    · subst hij
      change ((s.setClient i _).clients i).fd = _
      rw [Server.setClient_clients_self]
    · exact congrArg Client.fd (Server.setClient_clients_of_ne _ _ hij)
  | close j hactive hout =>
    have hij : i ≠ j := by
      rintro rfl
      rw [hout] at hin
      contradiction
    rw [disconnectClient_eq hactive,Server.setClient_clients_of_ne _ _ hij]
    rfl
  | connect j fd hfree hunused =>
    have hij : i ≠ j := by
      rintro rfl
      rw [room_active hin] at hfree
      contradiction
    exact congrArg Client.fd (Server.setClient_clients_of_ne _ _ hij)
  | openFd fd hunused => rfl

theorem Act.Legal.sockets (ha : a.Legal) (hs : a.before.sockets.Consistent) :
    a.after.sockets.Consistent := by
  obtain ⟨s,move⟩ := a
  cases move with
  | line i line =>
    have hactive : (s.clients i).active = true := ha.active
    change (s.processLine i line).1.sockets.Consistent
    rcases processLine_sockets hactive line with ⟨heq,-⟩ | heq
    · rwa [heq]
    · rw [heq]
      exact hs.close hactive
  | fin i =>
    have hactive : (s.clients i).active = true := ha.active
    change (s.handleFin i _).sockets.Consistent
    rw [handleFin_sockets hactive]
    exact hs.close hactive
  | lost i =>
    have hactive : (s.clients i).active = true := ha.active
    change (s.disconnectClient i).sockets.Consistent
    rw [disconnectClient_sockets hactive]
    exact hs.close hactive

theorem Did.nameOk {move : Move} {own told : List Bytes}
    (h : Did s i t move (some (.enters j name)) own told) : NameOk name := by
  cases h with
  | joined name hname => exact hname

theorem Act.Legal.sound (ha : a.Legal) (hs : a.before.Sound) : a.after.Sound := by
  obtain ⟨own,told,hdid,-,hroom⟩ := ha.explained hs
  refine ⟨ha.sockets hs.sockets,hroom.names hs.names (fun j name hj => ?_),
    hroom.distinct hs.distinct⟩
  rw [Option.mem_toList] at hj
  rw [hj] at hdid
  exact hdid.nameOk

/-- Everything is in order after a trace. -/
theorem Trace.sound (h : Trace s as t) (hs : s.Sound) : t.Sound := by
  induction h with
  | refl => exact hs
  | idle h _ ih => exact ih (h.sound hs)
  | act a ha _ ih => exact ih (ha.sound hs)

/-- The acts of a trace are made in states in order. -/
theorem Trace.act_sound (h : Trace s as t) (hs : s.Sound) :
    ∀ a ∈ as, a.Legal ∧ a.before.Sound := by
  induction h with
  | refl => simp
  | idle h _ ih => exact ih (h.sound hs)
  | act a ha _ ih => exact List.forall_mem_cons.mpr ⟨⟨ha,hs⟩,ih (ha.sound hs)⟩

/-- What every act of a trace keeps of the room, the trace keeps. -/
theorem Trace.keeps {P : Room Slot Bytes → Prop} (h : Trace s as t) (hs : s.Sound)
    (hkeep : ∀ a ∈ as, a.Legal → a.before.Sound → P a.before.room → P a.after.room)
    (hP : P s.room) : P t.room := by
  induction h with
  | refl => exact hP
  | idle h _ ih => exact ih (h.sound hs) hkeep (by rwa [h.room])
  | act a ha _ ih =>
    obtain ⟨hfirst,hrest⟩ := List.forall_mem_cons.mp hkeep
    exact ih (ha.sound hs) hrest (hfirst ha hs hP)

end Traces

section Lines

variable {buffer line : Bytes}

/-- The complete lines of a buffer fit it with their newlines. -/
theorem completeLines_fit (buffer : Bytes) :
    ∀ line ∈ completeLines buffer, line.length < buffer.length ∧ newline ∉ line := by
  induction buffer using lines_induction with
  | plain buffer hplain => simp [completeLines_plain hplain]
  | line first rest hfirst ih =>
    rw [completeLines_line hfirst]
    intro line hline
    rw [List.length_append,List.length_cons]
    rcases List.mem_cons.mp hline with rfl | hline
    · exact ⟨by omega,hfirst⟩
    · obtain ⟨hlength,hnew⟩ := ih line hline
      exact ⟨by omega,hnew⟩

theorem cstr_fits {line : Bytes} (hlength : line.length < buffer.length)
    (hbuffer : buffer.length < bufferSize) (hline : newline ∉ line) (i : Slot) :
    (Move.line i (cstr line)).Fits := by
  have hshort : (cstr line).length ≤ line.length := (List.takeWhile_prefix _).length_le
  exact ⟨by omega,fun h => hline ((List.takeWhile_prefix _).subset h)⟩

end Lines

section Events

variable {s t : Server} {i : Slot}

/-- The call of a reader as an act. -/
def actOf (i : Slot) (call : LineReader.Call Server Unit) : Act :=
  ⟨call.before,.line i (cstr call.line)⟩

theorem loop_trace (envs : ℕ → Unit) (i : Slot) (rounds : ℕ) (s : Server)
    (hfits : ∀ call ∈ (reader i).calls envs rounds s, (actOf i call).move.Fits) :
    Trace s (((reader i).calls envs rounds s).map (actOf i)) ((reader i).loop envs rounds s) := by
  induction rounds generalizing s with
  | zero => exact .refl s
  | succ rounds ih =>
    rw [LineReader.calls] at hfits ⊢
    rw [LineReader.loop]
    cases hopen : (reader i).isOpen s with
    | false => exact .refl s
    | true =>
      cases hfirst : firstLine ((reader i).buffer s) with
      | none => exact .refl s
      | some p =>
        obtain ⟨line,rest⟩ := p
        simp only [hopen,hfirst,Bool.not_true,Bool.false_eq_true,if_false] at hfits ⊢
        have hactive : (((reader i).setBuffer s rest).clients i).active = true :=
          ((reader_reads i).lawful.isOpen_setBuffer s rest).trans hopen
        refine .idle (.buffer s i rest) ?_
        refine .act (actOf i ⟨envs rounds,(reader i).setBuffer s rest,line⟩)
          ⟨hactive,hfits _ List.mem_cons_self⟩ ?_
        split at hfits
        · next hstop => rw [if_pos hstop,if_pos hstop]; exact .refl _
        · next hgo =>
          rw [if_neg hgo,if_neg hgo]
          exact ih _ (fun call hcall => hfits call (List.mem_cons_of_mem _ hcall))

/-- The lines of an accepted chunk fit the buffer. -/
theorem calls_fit (hactive : (s.clients i).active = true) {buffer : Bytes}
    (hbuffer : buffer.length < bufferSize) :
    ∀ call ∈ (reader i).calls (fun _ => ()) buffer.length ((reader i).setBuffer s buffer),
      (actOf i call).move.Fits := by
  intro call hcall
  have hreads := reader_reads i
  have hopen : (reader i).isOpen ((reader i).setBuffer s buffer) = true :=
    (hreads.lawful.isOpen_setBuffer s buffer).trans hactive
  have hheld : (reader i).buffer ((reader i).setBuffer s buffer) = buffer :=
    hreads.lawful.buffer_setBuffer s buffer
  obtain ⟨htaken,-,-⟩ := hreads.lawful.loop_spec (fun _ => ()) hopen (le_of_eq (congrArg _ hheld))
  rw [hheld] at htaken
  have hmem : (call.line,(reader i).buffer call.before) ∈ linesTaken buffer :=
    htaken.subset (List.mem_map.mpr ⟨call,hcall,rfl⟩)
  have hline : call.line ∈ completeLines buffer := by
    rw [← linesTaken_fst]
    exact List.mem_map.mpr ⟨_,hmem,rfl⟩
  obtain ⟨hlength,hnew⟩ := completeLines_fit buffer _ hline
  exact cstr_fits hlength hbuffer hnew i

theorem handleData_trace (hactive : (s.clients i).active = true) (fd : ℤ) (bytes : Bytes) :
    Trace s (if bufferSize ≤ (s.clients i).inputBuffer.length+bytes.length then [] else
      ((reader i).calls (fun _ => ()) ((s.clients i).inputBuffer ++ bytes).length
        ((reader i).setBuffer s ((s.clients i).inputBuffer ++ bytes))).map (actOf i))
      (s.handleData i fd bytes) := by
  unfold Server.handleData
  dsimp only
  split_ifs with hlong
  · exact .idle (.say s fd _ (by simp [notices])) (.single (.buffer _ i []))
  · have hbuffer : ((s.clients i).inputBuffer ++ bytes).length < bufferSize := by
      rw [List.length_append]
      exact not_le.mp hlong
    exact .idle (.buffer s i _) (loop_trace _ i _ _ (calls_fit hactive hbuffer))

theorem handleAccept_trace {answer : AcceptAnswer} (hunused : s.fds answer.fd = none) :
    Trace s [] (s.handleAccept answer) := by
  simp only [Server.handleAccept]
  cases hi : (s.openFd answer.fd).findFreeClient with
  | none => exact .idle (.openFd s answer.fd hunused) (.single (.say _ answer.fd _ (by simp [notices])))
  | some i =>
    refine .idle (.connect s i answer.fd (findFreeClient_some hi) hunused) ?_
    dsimp only
    split
    · refine .single (.close _ i ?_ ?_)
      · rw [Server.setClient_clients_self]
        rfl
      · rw [setClient_room,Function.update_self]
        rfl
    · exact .single (.say _ _ _ (by simp [notices]))

/-- Handling an event is a trace of its acts. -/
theorem handleEntry_trace {e : Entry} (hfits : e.Fits s) :
    Trace s (s.acts e) (s.handleEntry e) := by
  cases hrecv : s.received e with
  | some p =>
    obtain ⟨i,bytes⟩ := p
    obtain ⟨-,hi,-⟩ := received_some hrecv
    have hacts : s.acts e = if bufferSize ≤ (s.clients i).inputBuffer.length+bytes.length then []
        else ((reader i).calls (fun _ => ()) ((s.clients i).inputBuffer ++ bytes).length
          ((reader i).setBuffer s ((s.clients i).inputBuffer ++ bytes))).map (actOf i) := by
      simp only [Server.acts,Server.calls,hrecv]
      split_ifs
      · rfl
      · rw [List.map_map]
        rfl
    rw [handleEntry_received hrecv,hacts]
    exact handleData_trace (findClientByFd_some hi).1 e.fd bytes
  | none =>
    unfold Server.handleEntry Server.acts
    rw [hrecv]
    dsimp only
    by_cases he : e.fd = s.serverFd
    · rw [if_pos he,if_pos he]
      cases ha : e.accept with
      | none => exact .refl s
      | some answer => exact handleAccept_trace (hfits.1 answer ha).2.2
    · rw [if_neg he,if_neg he]
      cases hi : s.findClientByFd e.fd with
      | none => exact .refl s
      | some i =>
        obtain ⟨hactive,hfd⟩ := findClientByFd_some hi
        cases hanswer : e.recv with
        | data bytes => simp [Server.received,he,hi,hanswer] at hrecv
        | interrupted => exact .refl s
        | fin =>
          rw [← hfd]
          exact .act ⟨s,.fin i⟩ ⟨hactive,trivial⟩ (.refl _)
        | error => exact .act ⟨s,.lost i⟩ ⟨hactive,trivial⟩ (.refl _)

theorem run_trace {es : List Entry} (hs : groupChat.Reachable s) (h : groupChat.run es s = some t) :
    Trace s (runActs es s) t := by
  refine Machine.observe_invariant (I := fun u acts => Trace s acts u) ?_ hs (.refl s) h
  intro u e v acts _ hv hu
  obtain ⟨hfits,rfl⟩ := groupChat_step.mp hv
  exact hu.trans (handleEntry_trace hfits)

/-- In every state that is reached the connections and the names are in order. -/
theorem reachable_sound (hs : groupChat.Reachable s) : s.Sound := by
  refine hs.invariant (I := Server.Sound) ?_ ?_
  · rintro s ⟨serverFd,rfl⟩
    have hempty : ∀ i, (Server.boot serverFd).room i = none := fun _ => rfl
    refine ⟨Sockets.initial_consistent maxClients,fun i name hi => ?_,fun i j name hi => ?_⟩
    · rw [hempty i] at hi
      contradiction
    · rw [hempty i] at hi
      contradiction
  · intro s e t _ hsound _ ht
    obtain ⟨hfits,rfl⟩ := groupChat_step.mp ht
    exact (handleEntry_trace hfits).sound hsound

end Events

end NetLab.GroupChat
