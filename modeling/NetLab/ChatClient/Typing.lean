import NetLab.ChatClient.Client
import NetLab.Foundation.SocketHub
import NetLab.Chat.Input
import NetLab.GroupChat.Input

/-! From the keyboards of the clients to the server. What is typed is cut four times on its way: by
the terminal, by `fgets`, by `send` and by `recv`. The server puts the lines together again. -/
namespace NetLab.ChatClient

section Serving

variable {σ ι : Type*} {n : ℕ}

/-- A server and its clients. -/
def serving (S : SocketServer σ ι n) (sent : σ → List (ℤ × Bytes)) :
    Machine (Net σ Terminal UInt8) (NetLabel ι Label) := Net.machine (S.hub sent) program

/-- What is typed by the client of connection `c`. -/
def typedBy (c : ℕ) (ls : List (NetLabel ι Label)) : Bytes := typed (programRun c ls)

/-- The lines of connection `c` that the server hands to `process_line`. -/
def handed (S : SocketServer σ ι n) (c : ℕ) (ls : List (NetLabel ι Label)) (s : σ) : List Bytes :=
  ((S.tap c).log S.machine (hubRun ls) s).handed.map Prod.snd

/-- All that has been typed by the client of connection `c` has come in at the server. -/
structure Arrived (w : Net σ Terminal UInt8) (c : ℕ) : Prop where
  up : w.up c = []
  running : (w.programs c).running = true
  stdio : (w.programs c).stdio = []
  stdin : (w.programs c).stdin = []

instance (w : Net σ Terminal UInt8) (c : ℕ) : Decidable (Arrived w c) :=
  decidable_of_iff (w.up c = [] ∧ (w.programs c).running = true ∧ (w.programs c).stdio = [] ∧
    (w.programs c).stdin = [])
    ⟨fun h => ⟨h.1,h.2.1,h.2.2.1,h.2.2.2⟩,fun h => ⟨h.up,h.running,h.stdio,h.stdin⟩⟩

/-- No line that is typed by the client of connection `c` is longer than `maxLine`. -/
structure Plain (maxLine c : ℕ) (ls : List (NetLabel ι Label)) : Prop where
  noNul : 0 ∉ typedBy c ls
  lines : ∀ line ∈ completeLines (typedBy c ls), line.length ≤ maxLine
  rest : (unfinished (typedBy c ls)).length ≤ maxLine

instance (maxLine c : ℕ) (ls : List (NetLabel ι Label)) : Decidable (Plain maxLine c ls) :=
  decidable_of_iff (0 ∉ typedBy c ls ∧ (∀ line ∈ completeLines (typedBy c ls),
    line.length ≤ maxLine) ∧ (unfinished (typedBy c ls)).length ≤ maxLine)
    ⟨fun h => ⟨h.1,h.2.1,h.2.2⟩,fun h => ⟨h.noNul,h.lines,h.rest⟩⟩

/-- As long as a connection is open, the lines handed over are the first of those typed, each one
whole, and all of them once everything has come in. -/
def HandsTyped (S : SocketServer σ ι n) (sent : σ → List (ℤ × Bytes)) (maxLine : ℕ) : Prop :=
  ∀ ls w w' c buffer, (serving S sent).init w → (serving S sent).run ls w = some w' →
    (S.tap c).status w'.hub = .opened buffer → Plain maxLine c ls →
    handed S c ls w.hub <+: completeLines (typedBy c ls) ∧
    (Arrived w' c → handed S c ls w.hub = completeLines (typedBy c ls) ∧
      buffer = unfinished (typedBy c ls))

variable {S : SocketServer σ ι n} {sent : σ → List (ℤ × Bytes)} {w w' : Net σ Terminal UInt8}
  {ls : List (NetLabel ι Label)} {c maxLine : ℕ}

/-- What is typed is what the server has received followed by what has not come in. -/
theorem typedBy_eq (hS : S.Lawful) (hw : (serving S sent).init w)
    (hrun : (serving S sent).run ls w = some w') (hplain : 0 ∉ typedBy c ls) :
    ∃ rest, typedBy c ls = ((S.tap c).log S.machine (hubRun ls) w.hub).received ++ rest ∧
      (Arrived w' c → rest = []) := by
  obtain ⟨hinit,hterminals,hquiet⟩ := hw
  have hsides := Net.sides hrun c
  have hterminal : w.programs c = Terminal.connected := hterminals c
  have hup := hsides.up
  have hprogram : client.run (programRun c ls) Terminal.connected = some (w'.programs c) := by
    rw [← hterminal]
    exact hsides.program
  rw [hterminal,(hquiet c).1,List.nil_append] at hup
  obtain ⟨lost,hkeys,hkept⟩ := keyboard_run hprogram hplain
  replace hkeys : typedBy c ls = program.written (programRun c ls) Terminal.connected ++ lost ++
      ((w'.programs c).stdio ++ (w'.programs c).stdin) := hkeys
  have htaken : ((S.tap c).log S.machine (hubRun ls) w.hub).received =
      (S.hub sent).taken c (hubRun ls) w.hub := hS.taken_eq_received (.init hinit) hsides.hub
  rw [htaken]
  refine ⟨w'.up c ++ lost ++ ((w'.programs c).stdio ++ (w'.programs c).stdin),?_,fun harrived => ?_⟩
  · rw [hkeys,hup]
    simp only [List.append_assoc]
  · rw [harrived.up,hkept harrived.running,harrived.stdio,harrived.stdin]
    rfl

theorem handsTyped (hS : S.Lawful) (hcap : maxLine+S.maxChunk < S.cap) :
    HandsTyped S sent maxLine := by
  intro ls w w' c buffer hw hrun hopen hplain
  obtain ⟨rest,htyped,harrived⟩ := typedBy_eq hS hw hrun hplain.noNul
  have hlines := hplain.lines
  have hshort := hplain.rest
  rw [htyped] at hlines hshort
  have hunfinished := unfinished_length_le hlines hshort
  rw [completeLines_append] at hlines
  obtain ⟨hhanded,hbuffer,-⟩ := (hS.tap c).reassembles hcap w.hub (hubRun ls) w'.hub buffer hw.1
    (Net.sides hrun c).hub hopen (fun line hline => hlines line (List.mem_append_left _ hline))
    hunfinished
  refine ⟨?_,fun hall => ?_⟩
  · rw [handed,hhanded,htyped,completeLines_append]
    exact List.prefix_append _ _
  · have hnothing := harrived hall
    rw [hnothing,List.append_nil] at htyped
    rw [handed,hhanded,hbuffer,htyped]
    exact ⟨rfl,rfl⟩

end Serving

/-- In both chat servers the lines that a client types, none of them longer than 3071 bytes, are
handed over one by one as they were typed. -/
theorem typed_lines_handed : HandsTyped Chat.socketServer Chat.Server.sent 3071 ∧
    HandsTyped GroupChat.socketServer GroupChat.Server.sent 3071 :=
  ⟨handsTyped Chat.socketServer_lawful (by decide),
    handsTyped GroupChat.socketServer_lawful (by decide)⟩

/-- A server that has just started, with clients that have just connected. -/
def freshNet {σ : Type*} (s : σ) : Net σ Terminal UInt8 :=
  ⟨s,fun _ => Terminal.connected,fun _ => [],fun _ => []⟩

/-- A name and a line, cut by the terminal, by `send` and by `recv`. -/
def cutTyping : List (NetLabel GroupChat.Entry Label) :=
  [.hub { fd := 3, accept := some ⟨5,true⟩ },.program 0 (.types (ascii "ann\nhe")),
    .program 0 (.keyboard 4 false [.count 3,.interrupted,.count 1]),
    .hub { fd := 5, recv := .data (ascii "an") },.program 0 (.types (ascii "y\n")),
    .program 0 (.keyboard 4 false [.count 4]),.hub { fd := 5, recv := .data (ascii "n\nhey") },
    .hub { fd := 5, recv := .data (ascii "\n") }]

theorem typed_lines_handed_cutTyping : ∃ w,
    (serving GroupChat.socketServer GroupChat.Server.sent).run cutTyping
      (freshNet (GroupChat.Server.boot 3)) = some w ∧
    handed GroupChat.socketServer 0 cutTyping (GroupChat.Server.boot 3) =
      [ascii "ann",ascii "hey"] := by
  have hrun : ((serving GroupChat.socketServer GroupChat.Server.sent).run cutTyping
      (freshNet (GroupChat.Server.boot 3))).isSome = true := by decide
  obtain ⟨w,hw⟩ := Option.isSome_iff_exists.mp hrun
  have hend : ((serving GroupChat.socketServer GroupChat.Server.sent).run cutTyping
      (freshNet (GroupChat.Server.boot 3))).map (fun w =>
        (decide ((GroupChat.socketServer.tap 0).status w.hub = .opened []),decide (Arrived w 0))) =
      some (true,true) := by decide
  rw [hw] at hend
  simp only [Option.map_some,Option.some.injEq,Prod.mk.injEq,decide_eq_true_eq] at hend
  have hall := ((typed_lines_handed.2 cutTyping (freshNet (GroupChat.Server.boot 3)) w 0 []
    ⟨⟨3,rfl⟩,fun _ => rfl,fun _ => ⟨rfl,rfl⟩⟩ hw hend.1 (by decide)).2 hend.2).1
  exact ⟨w,hw,hall.trans (by decide)⟩

end NetLab.ChatClient
