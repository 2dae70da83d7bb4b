import NetLab.SendAll
import NetLab.Foundation.Hub

/-! The chat client: what is typed goes to the server through `fgets` and `send_all`, and what the
server sends is printed. Both happen behind one `poll`. -/
namespace NetLab.ChatClient

def lineSize : ℕ := 1024
def recvSize : ℕ := 4096

/-- `fgets` with `room` bytes left in its buffer, on the bytes that stdin has; `none` while it waits
for more. It returns `NULL` where it gets no byte. -/
def fgetsRest (eof : Bool) : ℕ → Bytes → Option (Bytes × Bytes)
  | 0,s => some ([],s)
  | _+1,[] => if eof then some ([],[]) else none
  | room+1,c::s =>
    if c = newline then some ([c],s)
    else (fgetsRest eof room s).map fun p => (c::p.1,p.2)

def fgets (eof : Bool) (s : Bytes) : Option (Bytes × Bytes) := fgetsRest eof (lineSize-1) s

/-- The client process with its keyboard and its screen: what has been typed and not been read,
what stdio has read and not given to `fgets`, whether the loop goes on, and what is printed. -/
structure Terminal where
  stdin : Bytes
  stdio : Bytes
  running : Bool
  shown : Bytes
deriving DecidableEq, Repr

/-- What `recv` answers. -/
inductive RecvAnswer
  | data (bytes : Bytes)
  | fin
  | failed
deriving DecidableEq, Repr

/-- Somebody types; `poll` reports the keyboard, from which stdio reads `k` bytes and perhaps the
end; it reports bytes from the server; it reports that the connection is gone; or it fails. -/
inductive Label
  | types (bytes : Bytes)
  | keyboard (k : ℕ) (eof : Bool) (answers : List SendAnswer)
  | server (answer : RecvAnswer)
  | hangup
  | pollFails
deriving DecidableEq

/-- The memory with `buffer` at its start. -/
def memory (buffer : Bytes) : ℕ → UInt8 := storeAt (fun _ => 0) 0 buffer

/-- `send_all(client_fd, buffer, strlen(buffer))`. -/
def sendBuffer (buffer : Bytes) (answers : List SendAnswer) : Sending :=
  sendAll 3 0 (cstr buffer).length answers

/-- What is sent of the buffer. -/
def sentOf (buffer : Bytes) (answers : List SendAnswer) : Bytes :=
  pieces (memory buffer) (sendBuffer buffer answers).calls

namespace Terminal

/-- What `fgets` takes when stdio reads `k` bytes. -/
def line (p : Terminal) (k : ℕ) (eof : Bool) : Option (Bytes × Bytes) :=
  fgets (eof && k = p.stdin.length) (p.stdio ++ p.stdin.take k)

def step (p : Terminal) : Label → Option Terminal
  | .types bytes => some { p with stdin := p.stdin ++ bytes }
  | .keyboard k eof answers =>
    if p.running = true ∧ (p.stdin ≠ [] ∨ eof = true) then
      (p.line k eof).bind fun taken =>
        let p := { p with stdin := p.stdin.drop k, stdio := taken.2 }
        if taken.1 = [] then some { p with running := false }
        else
          let sending := sendBuffer taken.1 answers
          if (∀ c ∈ sending.calls, c.Answered) ∧ sending.code ≠ none then
            some { p with running := decide (sending.code = some 0) }
          else none
    else none
  | .server (.data bytes) =>
    if p.running = true ∧ 0 < bytes.length ∧ bytes.length ≤ recvSize-1 then
      some { p with shown := p.shown ++ cstr bytes }
    else none
  | .server .fin =>
    if p.running = true then
      some { p with running := false, shown := p.shown ++ ascii "\nServer disconnected.\n" }
    else none
  | .server .failed | .pollFails =>
    if p.running = true then some { p with running := false } else none
  | .hangup =>
    if p.running = true then
      some { p with running := false, shown := p.shown ++ ascii "\nConnection closed.\n" }
    else none

/-- Behind `connect`. -/
def connected : Terminal := ⟨[],[],true,ascii "Connected to server.\n"⟩

end Terminal

def client : Machine Terminal Label where
  init p := p = Terminal.connected
  step := Terminal.step

namespace Label

def typed : Label → Bytes
  | .types bytes => bytes
  | _ => []

def received : Label → Bytes
  | .server (.data bytes) => bytes
  | _ => []

/-- What a step sends to the server. -/
def sent (p : Terminal) : Label → Bytes
  | .keyboard k eof answers =>
    match p.line k eof with
    | none => []
    | some (line,_) => if line = [] then [] else sentOf line answers
  | _ => []

end Label

/-- The client at the end of its connection. -/
def program : Program Terminal Label UInt8 := ⟨client,Label.received,Label.sent⟩

/-- What is typed in a run. -/
def typed (ls : List Label) : Bytes := ls.flatMap Label.typed

variable {p q : Terminal} {ls : List Label}

/-! ### The keyboard -/

theorem fgetsRest_append {eof : Bool} {room : ℕ} {s line rest : Bytes}
    (h : fgetsRest eof room s = some (line,rest)) : line ++ rest = s := by
  induction s generalizing room line with
  | nil =>
    cases room with
    | zero =>
      obtain ⟨rfl,rfl⟩ := Prod.mk.inj (Option.some.inj h)
      rfl
    | succ room =>
      simp only [fgetsRest] at h
      split_ifs at h
      obtain ⟨rfl,rfl⟩ := Prod.mk.inj (Option.some.inj h)
      rfl
  | cons c s ih =>
    cases room with
    | zero =>
      obtain ⟨rfl,rfl⟩ := Prod.mk.inj (Option.some.inj h)
      rfl
    | succ room =>
      simp only [fgetsRest] at h
      split_ifs at h
      · obtain ⟨rfl,rfl⟩ := Prod.mk.inj (Option.some.inj h)
        rfl
      · obtain ⟨taken,htaken,heq⟩ := Option.map_eq_some_iff.mp h
        obtain ⟨rfl,rfl⟩ := Prod.mk.inj heq
        rw [List.cons_append,ih htaken]

/-- `fgets` loses nothing of what stdin has. -/
theorem line_append {k : ℕ} {eof : Bool} {line rest : Bytes} (h : p.line k eof = some (line,rest)) :
    p.stdio ++ p.stdin = line ++ (rest ++ p.stdin.drop k) := by
  have htaken : line ++ rest = p.stdio ++ p.stdin.take k := fgetsRest_append h
  rw [← List.append_assoc,htaken,List.append_assoc,List.take_append_drop]

theorem fgetsRest_length {eof : Bool} {room : ℕ} {s line rest : Bytes}
    (h : fgetsRest eof room s = some (line,rest)) : line.length ≤ room := by
  induction s generalizing room line with
  | nil =>
    cases room with
    | zero =>
      obtain ⟨rfl,rfl⟩ := Prod.mk.inj (Option.some.inj h)
      exact le_refl 0
    | succ room =>
      simp only [fgetsRest] at h
      split_ifs at h
      obtain ⟨rfl,rfl⟩ := Prod.mk.inj (Option.some.inj h)
      exact Nat.zero_le _
  | cons c s ih =>
    cases room with
    | zero =>
      obtain ⟨rfl,rfl⟩ := Prod.mk.inj (Option.some.inj h)
      exact le_refl 0
    | succ room =>
      simp only [fgetsRest] at h
      split_ifs at h
      · obtain ⟨rfl,rfl⟩ := Prod.mk.inj (Option.some.inj h)
        exact Nat.succ_le_succ (Nat.zero_le _)
      · obtain ⟨taken,htaken,heq⟩ := Option.map_eq_some_iff.mp h
        obtain ⟨rfl,rfl⟩ := Prod.mk.inj heq
        exact Nat.succ_le_succ (ih htaken)

/-- `send_all` sends the buffer up to its first NUL, or less when it fails. -/
theorem sentOf_spec {buffer : Bytes} (hshort : buffer.length ≤ lineSize-1)
    {answers : List SendAnswer} (hanswered : ∀ c ∈ (sendBuffer buffer answers).calls, c.Answered) :
    sentOf buffer answers <+: cstr buffer ∧
      ((sendBuffer buffer answers).code = some 0 → sentOf buffer answers = cstr buffer) := by
  have hpre : cstr buffer <+: buffer := List.takeWhile_prefix _
  have hlength : (cstr buffer).length < 2^64 := by
    have hle := hpre.length_le
    have hsize : lineSize-1 < 2^64 := by decide
    omega
  have hsent : SentInOrder (memory buffer) 3 0 (cstr buffer).length (sendBuffer buffer answers) :=
    (sendLoop_rounds hlength (Nat.zero_le _) hanswered).sentInOrder (memory buffer) hanswered
  have hmemory : segment (memory buffer) 0 (cstr buffer).length = cstr buffer := by
    obtain ⟨rest,hrest⟩ := hpre
    have hall : segment (memory buffer) 0 buffer.length = buffer := segment_storeAt_self _ _ _
    have hlen : buffer.length = (cstr buffer).length+rest.length := by
      rw [← hrest,List.length_append,hrest]
    rw [hlen,← segment_append] at hall
    exact (List.append_inj (hall.trans hrest.symm) (segment_length _ _ _)).1
  rw [← hmemory]
  exact ⟨hsent.pieces_prefix,fun hcode => hsent.whole.mp hcode⟩

/-! ### Runs -/

theorem written_cons {l : Label} (h : client.step p l = some q) :
    program.written (l::ls) p = l.sent p ++ program.written ls q := by
  have hstep : program.machine.step p l = some q := h
  simp only [Program.written,hstep]
  rfl

/-- A client that has left its loop does nothing more; what is typed stays where it is. -/
theorem stopped_run (hstopped : p.running = false) (h : client.run ls p = some q) :
    q.running = false ∧ q.shown = p.shown ∧ q.stdio = p.stdio ∧ q.stdin = p.stdin ++ typed ls ∧
      program.written ls p = [] ∧ ls.flatMap Label.received = [] := by
  induction ls generalizing p with
  | nil =>
    obtain rfl : p = q := by simpa using h
    exact ⟨hstopped,rfl,rfl,(List.append_nil _).symm,rfl,rfl⟩
  | cons l ls ih =>
    obtain ⟨u,hu,hrun⟩ := Option.bind_eq_some_iff.mp h
    have hgoes : ¬ p.running = true := by simp [hstopped]
    have hstep : p.step l = some u := hu
    cases l with
    | types bytes =>
      obtain rfl := Option.some.inj hstep
      obtain ⟨hrunning,hshown,hstdio,hstdin,hwritten,hreceived⟩ :=
        ih (p := { p with stdin := p.stdin ++ bytes }) hstopped hrun
      refine ⟨hrunning,hshown,hstdio,?_,?_,?_⟩
      · rw [hstdin,List.append_assoc]
        rfl
      · rw [written_cons hu,hwritten]
        rfl
      · rw [List.flatMap_cons,hreceived]
        rfl
    | keyboard k eof answers => simp [Terminal.step,hgoes] at hstep
    | server answer => cases answer <;> simp [Terminal.step,hgoes] at hstep
    | hangup => simp [Terminal.step,hgoes] at hstep
    | pollFails => simp [Terminal.step,hgoes] at hstep

/-- What a step does with the keyboard: what it sends, followed by what it loses, comes off. -/
structure KeyStep (p q : Terminal) (l : Label) (lost : Bytes) : Prop where
  keys : p.stdio ++ p.stdin ++ l.typed = l.sent p ++ lost ++ (q.stdio ++ q.stdin)
  running : q.running = true → lost = []

theorem keyboard_step {l : Label} (h : p.step l = some q)
    (hplain : 0 ∉ p.stdio ++ p.stdin ++ l.typed) : ∃ lost, KeyStep p q l lost := by
  have hquiet : ∀ q : Terminal, q.stdio = p.stdio → q.stdin = p.stdin → l.typed = [] →
      l.sent p = [] → KeyStep p q l [] := by
    intro q hstdio hstdin htyped hsent
    refine ⟨?_,fun _ => rfl⟩
    rw [htyped,hsent,hstdio,hstdin,List.append_nil,List.nil_append,List.nil_append]
  cases l with
  | types bytes =>
    obtain rfl := Option.some.inj h
    exact ⟨[],List.append_assoc _ _ _,fun _ => rfl⟩
  | keyboard k eof answers =>
    simp only [Terminal.step] at h
    split_ifs at h with hgo
    obtain ⟨⟨line,rest⟩,hline,h⟩ := Option.bind_eq_some_iff.mp h
    have hall := line_append hline
    have hsent : Label.sent p (.keyboard k eof answers) =
        if line = [] then [] else sentOf line answers := by
      simp only [Label.sent,hline]
    simp only at h
    split_ifs at h with hnull hsend
    · obtain rfl := Option.some.inj h
      refine ⟨[],?_,fun _ => rfl⟩
      rw [hsent,if_pos hnull,hall,hnull]
      simp [Label.typed]
    · obtain rfl := Option.some.inj h
      have hshort : line.length ≤ lineSize-1 := fgetsRest_length hline
      have hcstr : cstr line = line := by
        refine cstr_of_not_mem fun hmem => hplain ?_
        rw [hall,List.append_assoc]
        exact List.mem_append_left _ hmem
      obtain ⟨⟨lost,hlost⟩,hwhole⟩ := sentOf_spec hshort hsend.1
      rw [hcstr] at hlost hwhole
      refine ⟨lost,?_,fun hrunning => ?_⟩
      · rw [hsent,if_neg hnull,hall,hlost]
        exact List.append_nil _
      · have hcode : (sendBuffer line answers).code = some 0 := by simpa using hrunning
        rw [hwhole hcode] at hlost
        exact List.append_right_eq_self.mp hlost
  | server answer =>
    cases answer with
    | data bytes =>
      obtain ⟨-,rfl⟩ := guarded_eq_some.mp h
      exact ⟨[],hquiet _ rfl rfl rfl rfl⟩
    | fin =>
      obtain ⟨-,rfl⟩ := guarded_eq_some.mp h
      exact ⟨[],hquiet _ rfl rfl rfl rfl⟩
    | failed =>
      obtain ⟨-,rfl⟩ := guarded_eq_some.mp h
      exact ⟨[],hquiet _ rfl rfl rfl rfl⟩
  | hangup =>
    obtain ⟨-,rfl⟩ := guarded_eq_some.mp h
    exact ⟨[],hquiet _ rfl rfl rfl rfl⟩
  | pollFails =>
    obtain ⟨-,rfl⟩ := guarded_eq_some.mp h
    exact ⟨[],hquiet _ rfl rfl rfl rfl⟩

/-- What is typed without NULs goes to the server as it is; only a client that has left its loop
may have lost a part of its last line. -/
theorem keyboard_run (h : client.run ls p = some q) (hplain : 0 ∉ p.stdio ++ p.stdin ++ typed ls) :
    ∃ lost, p.stdio ++ p.stdin ++ typed ls = program.written ls p ++ lost ++ (q.stdio ++ q.stdin) ∧
      (q.running = true → lost = []) := by
  induction ls generalizing p with
  | nil =>
    obtain rfl : p = q := by simpa using h
    exact ⟨[],by simp [typed,Program.written],fun _ => rfl⟩
  | cons l ls ih =>
    obtain ⟨u,hu,hrun⟩ := Option.bind_eq_some_iff.mp h
    have hstep : p.step l = some u := hu
    have htyped : typed (l::ls) = l.typed ++ typed ls := rfl
    rw [htyped,← List.append_assoc] at hplain ⊢
    obtain ⟨lost,hkeys,hkept⟩ := keyboard_step hstep fun hmem => hplain (List.mem_append_left _ hmem)
    rw [written_cons hu,hkeys]
    by_cases hrunning : u.running = true
    · obtain rfl := hkept hrunning
      rw [hkeys,List.append_nil,List.append_assoc] at hplain
      obtain ⟨lost,hrest,hend⟩ := ih hrun fun hmem => hplain (List.mem_append_right _ hmem)
      refine ⟨lost,?_,hend⟩
      rw [List.append_nil,List.append_assoc,hrest]
      simp only [List.append_assoc]
    · obtain ⟨hstopped,-,hstdio,hstdin,hnothing,-⟩ := stopped_run (by simpa using hrunning) hrun
      refine ⟨lost,?_,fun hq => ?_⟩
      · rw [hnothing,hstdio,hstdin]
        simp only [List.append_assoc,List.nil_append]
      · rw [hstopped] at hq
        contradiction

/-- What a step prints: what it receives; on the way out of the loop, a notice. -/
theorem screen_step {l : Label} (h : p.step l = some q) (hplain : 0 ∉ l.received) :
    ∃ notice, q.shown = p.shown ++ l.received ++ notice ∧ (q.running = true → notice = []) := by
  have hquiet : ∀ q : Terminal, q.shown = p.shown → l.received = [] →
      q.shown = p.shown ++ l.received ++ [] := by
    intro q hshown hreceived
    rw [hshown,hreceived,List.append_nil,List.append_nil]
  have hstopped : ∀ {notice : Bytes}, false = true → notice = [] := by
    intro notice hfalse
    contradiction
  cases l with
  | types bytes =>
    obtain rfl := Option.some.inj h
    exact ⟨[],hquiet _ rfl rfl,fun _ => rfl⟩
  | keyboard k eof answers =>
    simp only [Terminal.step] at h
    split_ifs at h with hgo
    obtain ⟨taken,-,h⟩ := Option.bind_eq_some_iff.mp h
    split_ifs at h with hnull hsend
    · obtain rfl := Option.some.inj h
      exact ⟨[],hquiet _ rfl rfl,fun _ => rfl⟩
    · obtain rfl := Option.some.inj h
      exact ⟨[],hquiet _ rfl rfl,fun _ => rfl⟩
  | server answer =>
    cases answer with
    | data bytes =>
      obtain ⟨-,rfl⟩ := guarded_eq_some.mp h
      refine ⟨[],?_,fun _ => rfl⟩
      rw [List.append_nil]
      exact congrArg _ (cstr_of_not_mem hplain)
    | fin =>
      obtain ⟨-,rfl⟩ := guarded_eq_some.mp h
      refine ⟨ascii "\nServer disconnected.\n",?_,hstopped⟩
      rw [show Label.received (.server .fin) = [] from rfl,List.append_nil]
    | failed =>
      obtain ⟨-,rfl⟩ := guarded_eq_some.mp h
      exact ⟨[],hquiet _ rfl rfl,fun _ => rfl⟩
  | hangup =>
    obtain ⟨-,rfl⟩ := guarded_eq_some.mp h
    refine ⟨ascii "\nConnection closed.\n",?_,hstopped⟩
    rw [show Label.received .hangup = [] from rfl,List.append_nil]
  | pollFails =>
    obtain ⟨-,rfl⟩ := guarded_eq_some.mp h
    exact ⟨[],hquiet _ rfl rfl,fun _ => rfl⟩

/-- What comes from the server without NULs is printed as it is; only a client that has left its
loop may have printed more. -/
theorem screen_run (h : client.run ls p = some q) (hplain : 0 ∉ ls.flatMap Label.received) :
    ∃ notice, q.shown = p.shown ++ ls.flatMap Label.received ++ notice ∧
      (q.running = true → notice = []) := by
  induction ls generalizing p with
  | nil =>
    obtain rfl : p = q := by simpa using h
    exact ⟨[],by simp,fun _ => rfl⟩
  | cons l ls ih =>
    obtain ⟨u,hu,hrun⟩ := Option.bind_eq_some_iff.mp h
    rw [List.flatMap_cons] at hplain ⊢
    obtain ⟨notice,hstep,hquiet⟩ := screen_step hu fun hmem => hplain (List.mem_append_left _ hmem)
    by_cases hrunning : u.running = true
    · obtain rfl := hquiet hrunning
      obtain ⟨notice,hshown,hend⟩ := ih hrun fun hmem => hplain (List.mem_append_right _ hmem)
      refine ⟨notice,?_,hend⟩
      rw [hshown,hstep,List.append_nil,List.append_assoc p.shown]
    · obtain ⟨hstopped,hshown,-,-,-,hreceived⟩ := stopped_run (by simpa using hrunning) hrun
      refine ⟨notice,?_,fun hq => ?_⟩
      · rw [hshown,hstep,hreceived,List.append_nil]
      · rw [hstopped] at hq
        contradiction

end NetLab.ChatClient
