import NetLab.ChatClient.Typing
import NetLab.GroupChat.Speech

/-! The group chat from one keyboard to another screen. -/
namespace NetLab.ChatClient

open GroupChat (Entry Server Slot Stays runActs groupChat)

/-- The group chat server and its clients. -/
abbrev groupChatting : Machine (Net Server Terminal UInt8) (NetLabel Entry Label) :=
  serving GroupChat.socketServer Server.sent

/-- The lines of connection `c` that are handed over in `ls`, after `ls₀`. -/
def handedAfter (c : ℕ) (ls₀ ls : List (NetLabel Entry Label)) (s : Server) : List Bytes :=
  (handed GroupChat.socketServer c (ls₀ ++ ls) s).drop (handed GroupChat.socketServer c ls₀ s).length

section Runs

variable {w₀ w w' : Net Server Terminal UInt8} {ls₀ ls : List (NetLabel Entry Label)}
  {j k : Slot} {a b c : ℕ} {name : Bytes}

theorem hubRun_append {ι κ : Type*} (ls ls' : List (NetLabel ι κ)) :
    hubRun (ls ++ ls') = hubRun ls ++ hubRun ls' := List.filterMap_append

theorem programRun_append {ι κ : Type*} (c : ℕ) (ls ls' : List (NetLabel ι κ)) :
    programRun c (ls ++ ls') = programRun c ls ++ programRun c ls' := List.filterMap_append

theorem groupChat_sent (s : Server) (e : Entry) (t : Server) (h : groupChat.step s e = some t) :
    s.sent <+: t.sent := by
  obtain ⟨-,rfl⟩ := GroupChat.groupChat_step.mp h
  exact (s.goes_handleEntry e).sent

theorem mem_completeLines {s line : Bytes} (h : line ∈ completeLines s) : line ⊆ s := by
  intro x hx
  rw [← flatMap_completeLines s]
  exact List.mem_append_left _ (List.mem_flatMap.mpr ⟨line,h,List.mem_append_left _ hx⟩)

/-- What the server sends to its clients are C strings. -/
theorem received_plain (hw : groupChatting.init w₀) (hrun : groupChatting.run ls w₀ = some w)
    (c : ℕ) : 0 ∉ (programRun c ls).flatMap Label.received := by
  intro hmem
  have hsides := Net.sides hrun c
  have hhub : groupChat.run (hubRun ls) w₀.hub = some w.hub := hsides.hub
  have hdown := hsides.down
  rw [(hw.2.2 c).2,List.nil_append] at hdown
  have hgiven : 0 ∈ (GroupChat.socketServer.hub Server.sent).given c (hubRun ls) w₀.hub := by
    rw [hdown]
    exact List.mem_append_left _ hmem
  obtain ⟨p,hp,hzero⟩ := (SocketServer.mem_of_mem_given groupChat_sent hhub).2 0 hgiven
  exact (GroupChat.reachable_clean (.of_run (.init hw.1) hhub)).sent p hp hzero

/-- A member who stays sees on its screen all that is sent to it, as far as it has come. -/
theorem shown_texts (hw : groupChatting.init w₀) (hrun₀ : groupChatting.run ls₀ w₀ = some w)
    (hrun : groupChatting.run ls w = some w') (hk : w.hub.sockets.Holds k b)
    (hin : (w.hub.room k).isSome = true) (hstay : Stays k (runActs (hubRun ls) w.hub))
    (hrunning : (w'.programs b).running = true) :
    (w'.programs b).shown ++ w'.down b = (w.programs b).shown ++ w.down b ++
      (GroupChat.newTexts w.hub w'.hub (w.hub.clients k).fd).flatten := by
  have hreach : groupChat.Reachable w.hub := .of_run (.init hw.1) (Net.sides hrun₀ b).hub
  have hsides := Net.sides hrun b
  have hhub : groupChat.run (hubRun ls) w.hub = some w'.hub := hsides.hub
  obtain ⟨name,hname⟩ := Option.isSome_iff_exists.mp hin
  obtain ⟨hkept,-⟩ := (GroupChat.run_trace hreach hhub).keepsConnection
    (GroupChat.reachable_sound hreach) hname hstay
  have hopen : w'.hub.fds (w.hub.clients k).fd = some b := hkept.conn.trans hk.2
  have hgiven := (GroupChat.socketServer_lawful.given_eq groupChat_sent hreach hhub hk.2 hopen).2
  have hall : 0 ∉ (programRun b (ls₀ ++ ls)).flatMap Label.received := by
    refine received_plain hw (w := w') ?_ b
    rw [Machine.run_append,hrun₀]
    exact hrun
  rw [programRun_append,List.flatMap_append] at hall
  obtain ⟨notice,hshown,hquiet⟩ := screen_run hsides.program fun hmem =>
    hall (List.mem_append_right _ hmem)
  have hdown := hsides.down
  rw [hgiven] at hdown
  rw [hshown,hquiet hrunning,List.append_nil,List.append_assoc]
  exact (congrArg ((w.programs b).shown ++ ·) hdown.symm).trans (List.append_assoc _ _ _).symm

/-- What a member who stays says are the lines that its client has typed. -/
theorem spoken_lines (hw : groupChatting.init w₀) (hrun₀ : groupChatting.run ls₀ w₀ = some w)
    (hrun : groupChatting.run ls w = some w') (hj : w.hub.sockets.Holds j a)
    (hname : w.hub.room j = some name) (hstay : Stays j (runActs (hubRun ls) w.hub))
    (hplain : Plain 3071 a (ls₀ ++ ls)) :
    handed GroupChat.socketServer a (ls₀ ++ ls) w₀.hub <+: completeLines (typedBy a (ls₀ ++ ls)) ∧
    (Arrived w' a → handed GroupChat.socketServer a (ls₀ ++ ls) w₀.hub =
      completeLines (typedBy a (ls₀ ++ ls))) ∧
    (runActs (hubRun ls) w.hub).filterMap (GroupChat.Act.lineOf j) = handedAfter a ls₀ ls w₀.hub := by
  have hhub₀ : groupChat.run (hubRun ls₀) w₀.hub = some w.hub := (Net.sides hrun₀ a).hub
  have hreach : groupChat.Reachable w.hub := .of_run (.init hw.1) hhub₀
  have hhub : groupChat.run (hubRun ls) w.hub = some w'.hub := (Net.sides hrun a).hub
  obtain ⟨hkept,hstill⟩ := (GroupChat.run_trace hreach hhub).keepsConnection
    (GroupChat.reachable_sound hreach) hname hstay
  have hholds : w'.hub.sockets.Holds j a := by
    refine ⟨GroupChat.room_active (by rw [hstill]; rfl),?_⟩
    have hconn : w'.hub.fds (w.hub.clients j).fd = some a := hkept.conn.trans hj.2
    rwa [← hkept.fd] at hconn
  have hopen := hholds.status (GroupChat.reachable_sound (.of_run hreach hhub)).sockets
  have hall : groupChatting.run (ls₀ ++ ls) w₀ = some w' := by
    rw [Machine.run_append,hrun₀]
    exact hrun
  obtain ⟨hpre,hwhole⟩ := handsTyped GroupChat.socketServer_lawful (by decide) (ls₀ ++ ls) w₀ w'
    a _ hw hall hopen hplain
  refine ⟨hpre,fun harrived => (hwhole harrived).1,?_⟩
  obtain ⟨lines,hlines,hacts⟩ := GroupChat.lineOf_run hreach hhub hj hname hstay
    ((GroupChat.socketServer.tap a).log groupChat (hubRun ls₀) w₀.hub)
  have hlog : handed GroupChat.socketServer a (ls₀ ++ ls) w₀.hub =
      handed GroupChat.socketServer a ls₀ w₀.hub ++ lines := by
    have happend := Machine.observe_append (f := (GroupChat.socketServer.tap a).note) hhub₀
      (hubRun ls) .empty
    rw [handed,hubRun_append]
    change (groupChat.observe (GroupChat.socketServer.tap a).note (hubRun ls₀ ++ hubRun ls) w₀.hub
      .empty).handed.map Prod.snd = _
    rw [happend]
    exact hlines
  have hcstr : lines.map cstr = lines := by
    refine (List.map_congr_left fun line hline => ?_).trans (List.map_id lines)
    refine cstr_of_not_mem fun hzero => hplain.noNul ?_
    have hmem : line ∈ handed GroupChat.socketServer a (ls₀ ++ ls) w₀.hub := by
      rw [hlog]
      exact List.mem_append_right _ hline
    exact mem_completeLines (hpre.subset hmem) hzero
  rw [hacts,hcstr,handedAfter,hlog,List.drop_left]

end Runs

/-- In the group chat, between two members who stay: what the one types, line by line and without
the commands, is what the other hears from it, and all that the other hears is printed on its screen
in this order, as far as it has come. -/
theorem typed_and_shown {w₀ w w' : Net Server Terminal UInt8} {ls₀ ls : List (NetLabel Entry Label)}
    {j k : Slot} {a b : ℕ} {name : Bytes} (hw : groupChatting.init w₀)
    (hrun₀ : groupChatting.run ls₀ w₀ = some w) (hrun : groupChatting.run ls w = some w')
    (hjk : j ≠ k) (hj : w.hub.sockets.Holds j a) (hk : w.hub.sockets.Holds k b)
    (hname : w.hub.room j = some name) (hin : (w.hub.room k).isSome = true)
    (hstayj : Stays j (runActs (hubRun ls) w.hub)) (hstayk : Stays k (runActs (hubRun ls) w.hub))
    (hplain : Plain 3071 a (ls₀ ++ ls)) (hrunning : (w'.programs b).running = true) :
    handed GroupChat.socketServer a (ls₀ ++ ls) w₀.hub <+: completeLines (typedBy a (ls₀ ++ ls)) ∧
    (Arrived w' a → handed GroupChat.socketServer a (ls₀ ++ ls) w₀.hub =
      completeLines (typedBy a (ls₀ ++ ls))) ∧
    ((((runActs (hubRun ls) w.hub).flatMap (fun act => act.heard k)).filter
      (fun p => p.1 = j)).map Prod.snd = (handedAfter a ls₀ ls w₀.hub).filterMap
        (GroupChat.spoken name)) ∧
    (((runActs (hubRun ls) w.hub).flatMap (fun act => act.heard k)).map Prod.snd).Sublist
      (GroupChat.newTexts w.hub w'.hub (w.hub.clients k).fd) ∧
    (w'.programs b).shown ++ w'.down b = (w.programs b).shown ++ w.down b ++
      (GroupChat.newTexts w.hub w'.hub (w.hub.clients k).fd).flatten := by
  have hreach : groupChat.Reachable w.hub := .of_run (.init hw.1) (Net.sides hrun₀ a).hub
  have hsound := GroupChat.reachable_sound hreach
  have htrace := GroupChat.run_trace hreach (Net.sides hrun a).hub
  obtain ⟨hpre,hwhole,hlines⟩ := spoken_lines hw hrun₀ hrun hj hname hstayj hplain
  obtain ⟨other,hother⟩ := Option.isSome_iff_exists.mp hin
  refine ⟨hpre,hwhole,?_,htrace.heard_texts hsound hother hstayk,
    shown_texts hw hrun₀ hrun hk hin hstayk hrunning⟩
  rw [← hlines,htrace.heard hsound hin hstayk]
  exact htrace.spoken hsound hname hstayj hjk

/-- Two clients log in, and the second one has read what it was sent. -/
def twoMembers : List (NetLabel Entry Label) :=
  [.hub (.connection 5),.hub (.connection 6),.program 0 (.types (ascii "a\n")),
    .program 0 (.keyboard 2 false [.count 2]),.program 1 (.types (ascii "b\n")),
    .program 1 (.keyboard 2 false [.count 1,.count 1]),.hub (.bytes 5 "a\n"),.hub (.bytes 6 "b\n"),
    .program 1 (.server (.data (ascii "Enter your username: ")))]

/-- The first one types two lines, of which one is a command, and they are cut on the way. -/
def cutTalk : List (NetLabel Entry Label) :=
  [.program 0 (.types (ascii "h")),.program 1 (.types (ascii "ho\n")),
    .program 0 (.types (ascii "i\n/users\n")),.program 0 (.keyboard 3 false [.count 2,.count 1]),
    .hub (.bytes 5 "h"),.program 0 (.keyboard 7 false [.interrupted,.count 7]),
    .hub (.bytes 5 "i\n/users"),.hub (.bytes 5 "\n")]

theorem typed_and_shown_cutTalk : ∃ w w',
    groupChatting.run twoMembers (freshNet (Server.boot 3)) = some w ∧
    groupChatting.run cutTalk w = some w' ∧
    (((runActs (hubRun cutTalk) w.hub).flatMap (fun act => act.heard GroupChat.slotTwo)).filter
      (fun p => p.1 = GroupChat.slotOne)).map Prod.snd = [ascii "a: hi\n"] := by
  have hrun : (groupChatting.run twoMembers (freshNet (Server.boot 3))).isSome = true := by decide
  obtain ⟨w,hw⟩ := Option.isSome_iff_exists.mp hrun
  have hinit : groupChatting.init (freshNet (Server.boot 3)) :=
    ⟨⟨3,rfl⟩,fun _ => rfl,fun _ => ⟨rfl,rfl⟩⟩
  have hseats : (groupChatting.run twoMembers (freshNet (Server.boot 3))).map (fun w =>
      [((w.hub.clients GroupChat.slotOne).active,w.hub.fds (w.hub.clients GroupChat.slotOne).fd),
        ((w.hub.clients GroupChat.slotTwo).active,w.hub.fds (w.hub.clients GroupChat.slotTwo).fd)]) =
      some [(true,some 0),(true,some 1)] := by decide
  have hstart : (groupChatting.run twoMembers (freshNet (Server.boot 3))).map (fun w =>
      (w.hub.room GroupChat.slotOne,(w.hub.room GroupChat.slotTwo).isSome,
        decide (Stays GroupChat.slotOne (runActs (hubRun cutTalk) w.hub)),
        decide (Stays GroupChat.slotTwo (runActs (hubRun cutTalk) w.hub)))) =
      some (some (ascii "a"),true,true,true) := by decide
  have hend : (groupChatting.run twoMembers (freshNet (Server.boot 3))).map (fun w =>
      (groupChatting.run cutTalk w).map (fun w' => (w'.programs 1).running)) =
      some (some true) := by decide
  rw [hw] at hseats hstart hend
  simp only [Option.map_some,Option.some.injEq,Prod.mk.injEq,List.cons.injEq,and_true,
    decide_eq_true_eq] at hseats hstart hend
  obtain ⟨hname,hin,hstayOne,hstayTwo⟩ := hstart
  obtain ⟨w',hw',hrunning⟩ := Option.map_eq_some_iff.mp hend
  have hheard := (typed_and_shown hinit hw hw' (by decide) hseats.1 hseats.2 hname hin hstayOne
    hstayTwo (by decide) hrunning).2.2.1
  exact ⟨w,w',hw,hw',hheard.trans (by decide)⟩

end NetLab.ChatClient
