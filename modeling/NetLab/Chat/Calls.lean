import NetLab.Chat.Loop

/-! The lines that the main loop handles, one call of `process_line` after the other, and what
happens between two of them. An event, and a run, is a trace of such calls. -/
namespace NetLab.Chat

/-- The client in slot `i`, as the reader of the lines in its buffer. -/
def reader (i : Slot) : LineReader Server LineEnv where
  isOpen s := (s.clients i).active
  buffer s := (s.clients i).inputBuffer
  setBuffer s buffer := s.setClient i { s.clients i with inputBuffer := buffer }
  handle env s line := s.processLine env i (cstr line)

theorem lineLoop_eq_loop (envs : ℕ → LineEnv) (i : Slot) (rounds : ℕ) (s : Server) :
    Server.lineLoop envs i rounds s = (reader i).loop envs rounds s := by
  induction rounds generalizing s with
  | zero => rfl
  | succ rounds ih =>
    rw [Server.lineLoop,LineReader.loop]
    have hopen : (reader i).isOpen s = (s.clients i).active := rfl
    have hbuffer : (reader i).buffer s = (s.clients i).inputBuffer := rfl
    rw [hopen,hbuffer]
    cases firstLine (s.clients i).inputBuffer with
    | none => rfl
    | some p =>
      simp only [ih]
      rfl

/-- A call of `process_line` for the client in `slot`. -/
structure LineCall extends LineReader.Call Server LineEnv where
  slot : Slot

namespace LineCall

def after (c : LineCall) : Server := (c.before.processLine c.env c.slot (cstr c.line)).1

def client (c : LineCall) : Client := c.before.clients c.slot

/-- The line as the handlers get it. -/
def text (c : LineCall) : Bytes := sanitizeMessage (cstr c.line)

theorem zero_not_mem_text (c : LineCall) : 0 ∉ c.text :=
  (sanitizeMessage_plain (zero_not_mem_cstr c.line)).1

theorem effect (c : LineCall) : HasEffect c.before c.slot c.after :=
  processLine_effect c.before c.env c.slot (zero_not_mem_cstr c.line)

variable {c : LineCall}

/-- What handles a line, by the mode of its client. -/
theorem after_login (hm : c.client.mode = .login) :
    c.after = (c.before.processLogin c.env c.slot c.text).1 := by
  rw [after,Server.processLine,show (c.before.clients c.slot).mode = .login from hm]
  rfl

theorem after_menu (hm : c.client.mode = .menu) :
    c.after = (c.before.processMenu c.env c.slot c.text).1 := by
  rw [after,Server.processLine,show (c.before.clients c.slot).mode = .menu from hm]
  rfl

theorem after_chat (hm : c.client.mode = .chat) :
    c.after = (c.before.processChat c.env c.slot c.text).1 := by
  rw [after,Server.processLine,show (c.before.clients c.slot).mode = .chat from hm]
  rfl

theorem after_admin (hm : c.client.mode = .admin) :
    c.after = (c.before.processAdmin c.env c.slot c.text).1 := by
  rw [after,Server.processLine,show (c.before.clients c.slot).mode = .admin from hm]
  rfl

end LineCall

/-- The journal of a `recv` for an event of `fd`. -/
def Server.noteRecv (s : Server) (fd : ℤ) : Server :=
  { s with journal := s.journal ++ [.recv fd (s.fds fd)] }

/-- The calls made for a chunk that the client in slot `i` has sent. -/
def Server.dataCalls (s : Server) (i : Slot) (bytes : Bytes) (envs : ℕ → LineEnv) :
    List LineCall :=
  let client := s.clients i
  if inputBufferSize ≤ client.inputBuffer.length+bytes.length then []
  else
    let buffer := client.inputBuffer ++ bytes
    let s := s.setClient i { client with inputBuffer := buffer }
    ((reader i).calls envs buffer.length s).map (fun call => ⟨call,i⟩)

/-- The calls made while an event is handled. -/
def Server.calls (s : Server) (e : Entry) : List LineCall :=
  if e.fd = s.serverFd then []
  else
    match s.findClientByFd e.fd,e.recv with
    | some i,.data bytes envs => (s.noteRecv e.fd).dataCalls i bytes envs
    | _,_ => []

/-- What the main loop itself sends. -/
def notices : List Bytes :=
  [ascii "Enter your username: ",ascii "Server is full.\n",ascii "Input line too long.\n"]

/-- A step of the main loop between two calls. -/
inductive Idle : Server → Server → Prop
  | say (s : Server) (fd : ℤ) (text : Bytes) (h : text ∈ notices) : Idle s (s.sendText fd text)
  | buffer (s : Server) (i : Slot) (buffer : Bytes) :
    Idle s (s.setClient i { s.clients i with inputBuffer := buffer })
  | close (s : Server) (i : Slot) : Idle s (s.disconnectClient i)
  | recv (s : Server) (fd : ℤ) : Idle s (s.noteRecv fd)
  | connect (s : Server) (i : Slot) (fd : ℤ) (hfree : (s.clients i).active = false)
    (hserver : fd ≠ s.serverFd) (hunused : s.fds fd = none) :
    Idle s ((s.openFd fd).setClient i (Client.connected fd))
  | refuse (s : Server) (fd : ℤ) (hserver : fd ≠ s.serverFd) (hunused : s.fds fd = none) :
    Idle s ((s.openFd fd).closeFd fd)

/-- From the first state to the last, with these calls in this order. -/
inductive Trace : Server → List LineCall → Server → Prop
  | refl (s : Server) : Trace s [] s
  | idle {s t u : Server} {calls : List LineCall} (h : Idle s t) (ht : Trace t calls u) :
    Trace s calls u
  | line {u : Server} {calls : List LineCall} (c : LineCall) (h : c.client.active = true)
    (ht : Trace c.after calls u) : Trace c.before (c::calls) u

namespace Trace

variable {s t u : Server} {as bs : List LineCall} {c : LineCall}

theorem single (h : Idle s t) : Trace s [] t := .idle h (.refl t)

theorem trans (h : Trace s as t) (h' : Trace t bs u) : Trace s (as ++ bs) u := by
  induction h with
  | refl => exact h'
  | idle h _ ih => exact .idle h (ih h')
  | line c h _ ih => exact .line c h (ih h')

/-- The state in which a call of a trace is made. -/
theorem cons (h : Trace s (c::as) t) :
    Trace s [] c.before ∧ c.client.active = true ∧ Trace c.after as t := by
  generalize hcs : c::as = calls at h
  induction h with
  | refl => exact absurd hcs (List.cons_ne_nil _ _)
  | idle hidle _ ih =>
    obtain ⟨hbefore,hactive,hafter⟩ := ih hcs
    exact ⟨.idle hidle hbefore,hactive,hafter⟩
  | line d hactive hafter =>
    obtain ⟨rfl,rfl⟩ := List.cons.inj hcs
    exact ⟨.refl _,hactive,hafter⟩

theorem split (h : Trace s (as ++ bs) t) : ∃ u, Trace s as u ∧ Trace u bs t := by
  induction as generalizing s with
  | nil => exact ⟨s,.refl s,h⟩
  | cons c as ih =>
    obtain ⟨hbefore,hactive,hafter⟩ := cons h
    obtain ⟨u,hu,hrest⟩ := ih hafter
    exact ⟨u,hbefore.trans (.line c hactive hu),hrest⟩

/-- The calls before a call of a trace lead to the state in which it is made. -/
theorem before (h : Trace s (as ++ c::bs) t) :
    Trace s as c.before ∧ c.client.active = true ∧ Trace c.after bs t := by
  obtain ⟨u,hu,hrest⟩ := h.split
  obtain ⟨hbefore,hactive,hafter⟩ := hrest.cons
  refine ⟨?_,hactive,hafter⟩
  simpa using hu.trans hbefore

/-- What every step between calls and every call of the kind `Q` keep, for a property that may
look back at the calls made so far. -/
theorem invariant_from {I : List LineCall → Server → Prop} {Q : LineCall → Prop}
    (hidle : ∀ cs s t, Idle s t → I cs s → I cs t)
    (hline : ∀ cs c, c.client.active = true → Q c → I cs c.before → I (cs ++ [c]) c.after)
    (h : Trace s bs t) (hok : ∀ c ∈ bs, Q c) (hs : I as s) : I (as ++ bs) t := by
  induction h generalizing as with
  | refl => rwa [List.append_nil]
  | idle h _ ih => exact ih hok (hidle _ _ _ h hs)
  | line c hactive _ ih =>
    have hc := hline as c hactive (hok c List.mem_cons_self) hs
    have hrest := ih (fun d hd => hok d (List.mem_cons_of_mem _ hd)) hc
    rwa [List.append_assoc,List.singleton_append] at hrest

theorem invariant {P : Server → Prop} {Q : LineCall → Prop} (hidle : ∀ s t, Idle s t → P s → P t)
    (hline : ∀ c : LineCall, c.client.active = true → Q c → P c.before → P c.after)
    (h : Trace s as t) (hok : ∀ c ∈ as, Q c) (hs : P s) : P t := by
  induction h with
  | refl => exact hs
  | idle h _ ih => exact ih hok (hidle _ _ h hs)
  | line c hactive _ ih =>
    exact ih (fun d hd => hok d (List.mem_cons_of_mem _ hd))
      (hline c hactive (hok c List.mem_cons_self) hs)

end Trace

section Events

variable {s : Server}

theorem disconnect_trace (s : Server) (i : Slot) : Trace s [] (s.disconnectClient i) :=
  .single (.close s i)

theorem lineLoop_trace (envs : ℕ → LineEnv) (i : Slot) (rounds : ℕ) (s : Server) :
    Trace s (((reader i).calls envs rounds s).map (fun call => ⟨call,i⟩))
      ((reader i).loop envs rounds s) := by
  induction rounds generalizing s with
  | zero => exact .refl s
  | succ rounds ih =>
    rw [LineReader.calls,LineReader.loop]
    cases hopen : (reader i).isOpen s with
    | false => exact .refl s
    | true =>
      cases firstLine ((reader i).buffer s) with
      | none => exact .refl s
      | some p =>
        obtain ⟨line,rest⟩ := p
        simp only [Bool.not_true,Bool.false_eq_true,if_false]
        have hactive : (((reader i).setBuffer s rest).clients i).active = true := by
          change ((s.setClient i _).clients i).active = true
          rw [Server.setClient_clients_self]
          exact hopen
        refine .idle (.buffer s i rest) ?_
        refine .line ⟨⟨envs rounds,(reader i).setBuffer s rest,line⟩,i⟩ hactive ?_
        split
        · exact .refl _
        · exact ih _

theorem handleData_trace (s : Server) (i : Slot) (bytes : Bytes) (envs : ℕ → LineEnv) :
    Trace s (s.dataCalls i bytes envs) (s.handleData i bytes envs) := by
  simp only [Server.dataCalls,Server.handleData,lineLoop_eq_loop]
  split
  · exact .idle (.say s _ _ (by simp [notices])) (.single (.buffer _ i []))
  · exact .idle (.buffer s i _) (lineLoop_trace envs i _ _)

theorem handleAccept_trace {answer : AcceptAnswer} (hserver : answer.fd ≠ s.serverFd)
    (hunused : s.fds answer.fd = none) : Trace s [] (s.handleAccept answer) := by
  simp only [Server.handleAccept]
  cases hi : (s.openFd answer.fd).findFreeClientSlot with
  | none =>
    exact .idle (.refuse s answer.fd hserver hunused)
      (.single (.say _ answer.fd _ (by simp [notices])))
  | some i =>
    refine .idle (.connect s i answer.fd (findFreeClientSlot_some hi) hserver hunused) ?_
    dsimp only
    split
    · exact disconnect_trace _ i
    · exact .single (.say _ _ _ (by simp [notices]))

/-- Handling an event is a trace of its calls. -/
theorem handleEntry_trace {e : Entry} (hfits : e.Fits s) :
    Trace s (s.calls e) (s.handleEntry e) := by
  unfold Server.handleEntry Server.calls
  by_cases he : e.fd = s.serverFd
  · rw [if_pos he,if_pos he]
    cases ha : e.accept with
    | none => exact .refl s
    | some answer =>
      obtain ⟨-,hserver,hunused⟩ := hfits.1 answer ha
      exact handleAccept_trace hserver hunused
  · rw [if_neg he,if_neg he]
    cases s.findClientByFd e.fd with
    | none => exact .refl s
    | some i =>
      refine .idle (.recv s e.fd) ?_
      cases e.recv with
      | data bytes envs => exact handleData_trace _ i bytes envs
      | fin => exact disconnect_trace _ i
      | interrupted => exact .refl _
      | error => exact disconnect_trace _ i

end Events

/-- The server with any user table. -/
abbrev chat : Machine Server Entry := serving (fun _ => True)

/-- The calls made in a run. -/
def runCalls (as : List Entry) (s : Server) : List LineCall :=
  chat.observe (fun s e calls => calls ++ s.calls e) as s []

/-- The answers that an event brings for the lines it completes. -/
def Entry.Gives (P : LineEnv → Prop) (e : Entry) : Prop :=
  match e.recv with
  | .data _ envs => ∀ k, P (envs k)
  | _ => True

theorem calls_gives {P : LineEnv → Prop} {e : Entry} (h : e.Gives P) (s : Server) :
    ∀ c ∈ s.calls e, P c.env := by
  intro c hc
  unfold Server.calls at hc
  split_ifs at hc
  · contradiction
  · split at hc
    · next i bytes envs _ hrecv =>
      unfold Server.dataCalls at hc
      dsimp only at hc
      split_ifs at hc
      · contradiction
      · obtain ⟨call,hcall,rfl⟩ := List.mem_map.mp hc
        obtain ⟨k,hk⟩ := (reader i).calls_env envs _ _ call hcall
        simp only [Entry.Gives,hrecv] at h
        rw [hk]
        exact h k
    · contradiction

/-- What the answers of all events have, those of the calls have. -/
theorem runCalls_gives {P : LineEnv → Prop} {as : List Entry} (h : ∀ e ∈ as, e.Gives P) (s : Server) :
    ∀ c ∈ runCalls as s, P c.env := by
  have hfrom : ∀ (as : List Entry) s calls, (∀ e ∈ as, e.Gives P) → (∀ c ∈ calls, P c.env) →
      ∀ c ∈ chat.observe (fun s e calls => calls ++ s.calls e) as s calls, P c.env := by
    intro as
    induction as with
    | nil => exact fun s calls _ hcalls => hcalls
    | cons e as ih =>
      intro s calls has hcalls
      rw [Machine.observe]
      split
      · exact hcalls
      · refine ih _ _ (fun d hd => has d (List.mem_cons_of_mem _ hd)) ?_
        rw [List.forall_mem_append]
        exact ⟨hcalls,calls_gives (has e List.mem_cons_self) s⟩
  exact hfrom as s [] h (by simp)

theorem boot_init (users : List User) (disk : Disk) (serverFd : ℤ) :
    chat.init (Server.boot users disk serverFd []) := ⟨users,disk,serverFd,trivial,rfl⟩

theorem run_trace {as : List Entry} {s t : Server} (hs : chat.Reachable s)
    (h : chat.run as s = some t) : Trace s (runCalls as s) t := by
  refine Machine.observe_invariant (I := fun u calls => Trace s calls u) ?_ hs (.refl s) h
  intro u e v calls _ hv hu
  obtain ⟨hfits,rfl⟩ := serving_step.mp hv
  exact hu.trans (handleEntry_trace hfits)

end NetLab.Chat
