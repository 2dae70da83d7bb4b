import NetLab.Chat.Input
import NetLab.GroupChat.Input

/-! What both chat servers make of the lines of a connection. -/
namespace NetLab

/-- In both servers the lines of every connection are handed over as they were sent as long as
they have at most 3071 bytes, whatever the cuts. -/
theorem lines_reassembled (c : ℕ) : (Chat.socketServer.tap c).Reassembles Chat.chat 3071 ∧
    (GroupChat.socketServer.tap c).Reassembles GroupChat.groupChat 3071 :=
  ⟨(Chat.socketServer_lawful.tap c).reassembles (by decide),
    (GroupChat.socketServer_lawful.tap c).reassembles (by decide)⟩

theorem chat_whole_iff (c : ℕ) {s t : Chat.Server} {as : List Chat.Entry} (hs : Chat.chat.init s)
    (hrun : Chat.chat.run as s = some t) :
    (Chat.socketServer.tap c).HandsWholeLines Chat.chat as s ↔
      InStep 4096 Cursor.start ((Chat.socketServer.tap c).chunks Chat.chat as s) :=
  (Chat.socketServer_lawful.tap c).whole_iff hs hrun

/-- In both servers the texts handed over are whole lines of the stream exactly when no accepted
chunk completes a line whose beginning has been refused. -/
theorem handed_whole_iff (c : ℕ) :
    (∀ s as t, Chat.chat.init s → Chat.chat.run as s = some t →
      ((Chat.socketServer.tap c).HandsWholeLines Chat.chat as s ↔
        InStep 4096 Cursor.start ((Chat.socketServer.tap c).chunks Chat.chat as s))) ∧
    (∀ s as t, GroupChat.groupChat.init s → GroupChat.groupChat.run as s = some t →
      ((GroupChat.socketServer.tap c).HandsWholeLines GroupChat.groupChat as s ↔
        InStep 4096 Cursor.start ((GroupChat.socketServer.tap c).chunks GroupChat.groupChat as s))) :=
  ⟨fun _ _ _ hs hrun => chat_whole_iff c hs hrun,
    fun _ _ _ hs hrun => (GroupChat.socketServer_lawful.tap c).whole_iff hs hrun⟩

section Cuts

/-- A chunk from the client under descriptor 5. -/
def chunkEntry (bytes : Bytes) : Chat.Entry := { fd := 5, recv := .data bytes (fun _ => Chat.steadyEnv) }

/-- Bob's name and the beginning of a command, in two chunks. -/
def cutName : List Chat.Entry := [.connection 5,chunkEntry (ascii "b"),chunkEntry (ascii "ob\nn ah")]

theorem lines_reassembled_cutName : ∃ t, Chat.chat.run cutName Chat.firstServer = some t ∧
    ((Chat.socketServer.tap 0).log Chat.chat cutName Chat.firstServer).handed.map Prod.snd =
      [ascii "bob"] := by
  have hrun : (Chat.chat.run cutName Chat.firstServer).isSome = true := by decide
  obtain ⟨t,ht⟩ := Option.isSome_iff_exists.mp hrun
  have hopen : (Chat.chat.run cutName Chat.firstServer).map (Chat.socketServer.tap 0).status =
      some (.opened (ascii "n ah")) := by decide
  rw [ht] at hopen
  have hstatus : (Chat.socketServer.tap 0).status t = .opened (ascii "n ah") :=
    Option.some.inj hopen
  have hlines := ((lines_reassembled 0).1 _ _ _ _ (Chat.boot_init _ _ _) ht hstatus
    (by decide) (by decide)).1
  exact ⟨t,ht,hlines.trans (by decide)⟩

theorem handed_whole_cutName :
    (Chat.socketServer.tap 0).HandsWholeLines Chat.chat cutName Chat.firstServer := by
  have hrun : (Chat.chat.run cutName Chat.firstServer).isSome = true := by decide
  obtain ⟨t,ht⟩ := Option.isSome_iff_exists.mp hrun
  have hinit : Chat.chat.init Chat.firstServer := Chat.boot_init _ _ _
  rw [(handed_whole_iff 0).1 _ _ _ hinit ht]
  decide

/-- One line of 4097 letters that ends in a `q`, with a cut after every 1024 bytes. -/
def longLine : List Chat.Entry :=
  .connection 5::(List.replicate 4 (chunkEntry (List.replicate 1024 120)) ++ [chunkEntry (ascii "q\n")])

/-- The fourth chunk fills the buffer and is refused with all that came before; the rest of the
line is handed over as a line of its own. -/
theorem longLine_tail : ¬ ∀ c s as t, Chat.chat.init s → Chat.chat.run as s = some t →
    (Chat.socketServer.tap c).HandsWholeLines Chat.chat as s := by
  intro h
  have hrun : (Chat.chat.run longLine Chat.firstServer).isSome = true := by decide +kernel
  obtain ⟨t,ht⟩ := Option.isSome_iff_exists.mp hrun
  have hinit : Chat.chat.init Chat.firstServer := Chat.boot_init _ _ _
  have hwhole := h 0 _ _ _ hinit ht
  rw [chat_whole_iff 0 hinit ht] at hwhole
  revert hwhole
  decide +kernel

end Cuts

end NetLab
