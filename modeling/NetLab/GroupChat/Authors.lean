import NetLab.Foundation.Tagged
import NetLab.GroupChat.Broadcast

/-! Whether a line that is broadcast tells who has written it. -/
namespace NetLab.GroupChat

/-- What stands between the name and the line of a message. -/
def colon : Bytes := ascii ": "

/-- A line that a client can type and that is a message. -/
structure Sayable (line : Bytes) : Prop where
  short : line.length+1 < bufferSize
  oneLine : newline ∉ line
  cString : 0 ∉ line
  plain : beforeReturn line ∉ commands

/-- No line of one member reads like a line of another one. -/
def Server.AuthorsClear (s : Server) : Prop :=
  ∀ i j line line' fd fd' text, i ≠ j → (s.room i).isSome = true → (s.room j).isSome = true →
    Sayable line → Sayable line' → text ∈ Act.told ⟨s,.line i line⟩ fd →
    text ∉ Act.told ⟨s,.line j line'⟩ fd'

/-- No name in the room goes on with the colon behind another one. -/
def Server.NamesApart (s : Server) : Prop := s.room.Related (TagsApart colon)

/-- The same of the names under which clients log in during an event. -/
def Server.AdmitsApart (s : Server) (e : Entry) : Prop :=
  ∀ a ∈ s.acts e, ∀ name, a.happening = some (.enters a.slot name) →
    ∀ i other, a.before.room i = some other → TagsApart colon name other

section Names

variable {s : Server} {i : Slot} {name line : Bytes} {a : Act}

/-- Every name has been typed as a line. -/
structure TypedName (name : Bytes) : Prop where
  cString : 0 ∉ name
  noReturn : 13 ∉ name

theorem not_mem_beforeReturn (line : Bytes) : 13 ∉ beforeReturn line := by
  intro h
  simpa using List.mem_takeWhile_imp h

theorem typed_of_prefix (hline : 0 ∉ line) (h : name <+: beforeReturn line) : TypedName name :=
  ⟨fun hz => hline (mem_of_mem_beforeReturn (h.subset hz)),
    fun hr => not_mem_beforeReturn line (h.subset hr)⟩

/-- Who is in the room after a login has typed the name. -/
theorem processLogin_name (hout : s.room i = none) (h : (s.processLogin i line).room i = some name) :
    name <+: beforeReturn line := by
  simp only [Server.processLogin] at h
  split_ifs at h
  · exact absurd (hout.symm.trans h) (by simp)
  · exact absurd (hout.symm.trans h) (by simp)
  · exact absurd (hout.symm.trans h) (by simp)
  · have hseated : (s.setClient i { s.clients i with
        username := (beforeReturn line).take (usernameSize-1), loggedIn := true }).room i =
          some name := h
    rw [setClient_room,Function.update_self] at hseated
    split_ifs at hseated
    rw [← Option.some.inj hseated]
    exact List.take_prefix _ _

theorem entered (h : a.happening = some (.enters i name)) : i = a.slot ∧
    a.before.room a.slot = none ∧ a.after.room a.slot = some name := by
  unfold Act.happening at h
  split at h
  · next other hbefore hafter =>
    obtain ⟨rfl,rfl⟩ : a.slot = i ∧ other = name := by simpa using h
    exact ⟨rfl,hbefore,hafter⟩
  · simp at h
  · cases hmessage : a.message <;> simp [hmessage] at h

/-- A name that is new in the room comes from the line of the act. -/
theorem Act.Legal.typed (ha : a.Legal) (hline : ∀ i line, a.move = .line i line → 0 ∉ line)
    (h : a.happening = some (.enters i name)) : TypedName name := by
  obtain ⟨-,hbefore,hafter⟩ := entered h
  obtain ⟨s,move⟩ := a
  have hactive : (s.clients move.slot).active = true := ha.active
  have hgone : ∀ t : Server, t.clients = s.clients →
      (t.disconnectClient move.slot).room move.slot ≠ some name := by
    intro t ht hin
    rw [closed_room hactive ht,Function.update_self] at hin
    contradiction
  cases move with
  | line i line =>
    have hloggedIn : (s.clients i).loggedIn = false := (room_eq_none hactive).mp hbefore
    have hlogin : (s.processLogin i (beforeReturn line)).room i = some name := by
      have hprocess : (s.processLine i line).1.room i = some name := hafter
      simpa [Server.processLine,hloggedIn] using hprocess
    have hplain : 0 ∉ beforeReturn line := fun hz => hline i line rfl (mem_of_mem_beforeReturn hz)
    exact typed_of_prefix hplain (processLogin_name hbefore hlogin)
  | fin i =>
    refine absurd hafter ?_
    change (s.handleFin i _).room i ≠ some name
    unfold Server.handleFin
    dsimp only
    split
    · exact hgone _ rfl
    · exact hgone _ rfl
  | lost i => exact absurd hafter (hgone s rfl)

/-- The lines of the acts of an event are C strings. -/
theorem acts_cString {e : Entry} (ha : a ∈ s.acts e) : ∀ i line, a.move = .line i line → 0 ∉ line := by
  intro i line hmove
  unfold Server.acts at ha
  split at ha
  · obtain ⟨c,-,rfl⟩ := List.mem_map.mp ha
    obtain ⟨-,rfl⟩ := Move.line.inj hmove
    exact zero_not_mem_cstr _
  · split_ifs at ha
    · contradiction
    · split at ha
      · obtain rfl := List.mem_singleton.mp ha
        contradiction
      · obtain rfl := List.mem_singleton.mp ha
        contradiction
      · contradiction

/-- An act: the names in the room stay typed ones. -/
theorem Act.Legal.keepsTyped (ha : a.Legal) (hs : a.before.Sound)
    (hline : ∀ i line, a.move = .line i line → 0 ∉ line)
    (htyped : ∀ i name, a.before.room i = some name → TypedName name) :
    ∀ i name, a.after.room i = some name → TypedName name := by
  obtain ⟨-,-,-,-,hroom⟩ := ha.explained hs
  exact hroom.names htyped (fun i name hin => ha.typed hline (Option.mem_toList.mp hin))

theorem reachable_typed (hs : groupChat.Reachable s) :
    ∀ i name, s.room i = some name → TypedName name := by
  refine hs.invariant (I := fun s => ∀ i name, s.room i = some name → TypedName name) ?_ ?_
  · rintro s ⟨serverFd,rfl⟩ i name hi
    have hempty : (Server.boot serverFd).room i = none := rfl
    rw [hempty] at hi
    contradiction
  · intro s e t hreach htyped _ ht
    obtain ⟨hfits,rfl⟩ := groupChat_step.mp ht
    exact (handleEntry_trace hfits).keeps (P := fun r => ∀ i name, r i = some name → TypedName name)
      (reachable_sound hreach) (fun a ha hlegal hs => hlegal.keepsTyped hs (acts_cString ha)) htyped

end Names

section Apart

variable {s : Server} {e : Entry} {a : Act}

/-- An act: names that are apart stay so if one under which a client logs in is apart from them. -/
theorem Act.Legal.namesApart (ha : a.Legal) (hs : a.before.Sound)
    (hadmits : ∀ name, a.happening = some (.enters a.slot name) →
      ∀ i other, a.before.room i = some other → TagsApart colon name other)
    (hapart : a.before.NamesApart) : a.after.NamesApart := by
  obtain ⟨-,-,-,-,hroom⟩ := ha.explained hs
  cases hh : a.happening with
  | none =>
    rw [hh] at hroom
    rwa [Server.NamesApart,Room.Run.eq_of_nil hroom]
  | some happening =>
    rw [hh] at hroom
    rw [Server.NamesApart,Room.Run.eq_of_single hroom]
    refine Room.Related.after (fun _ _ => TagsApart.symm) hapart ?_
    rintro who name rfl
    obtain ⟨rfl,-,-⟩ := entered hh
    exact hadmits name hh

theorem reachable_namesApart (hs : groupChat.ReachableUnder Server.AdmitsApart s) :
    s.NamesApart := by
  refine hs.invariant (I := Server.NamesApart) ?_ ?_
  · rintro s ⟨serverFd,rfl⟩ i j name other - hi
    have hempty : (Server.boot serverFd).room i = none := rfl
    rw [hempty] at hi
    contradiction
  · intro s e t hreach hapart hok ht
    obtain ⟨hfits,rfl⟩ := groupChat_step.mp ht
    exact (handleEntry_trace hfits).keeps (P := Room.Related (TagsApart colon))
      (reachable_sound hreach.reachable) (fun a ha hlegal hs => hlegal.namesApart hs (hok a ha)) hapart

end Apart

section Messages

variable {s : Server} {i j : Slot} {line name other : Bytes}

theorem colon_unbordered : Unbordered colon := by
  intro k hpos hlt
  have hlength : colon.length = 2 := by decide
  obtain rfl : k = 1 := by omega
  decide

theorem messageText_tagged (name line : Bytes) :
    messageText name line = tagged colon name (line ++ ascii "\n") := by
  simp [messageText,tagged,colon]

/-- A message is told to the others as it is, and nothing else is told to anybody. -/
theorem told_message (hs : s.Sound) (hin : s.room i = some name) (hline : Sayable line) :
    (∀ j, j ≠ i → (s.room j).isSome = true →
      Act.told ⟨s,.line i line⟩ (s.clients j).fd = [messageText name (beforeReturn line)]) ∧
    ∀ fd, ∀ text ∈ Act.told ⟨s,.line i line⟩ fd, text = messageText name (beforeReturn line) := by
  have hactive : (s.clients i).active = true := room_active (by rw [hin]; rfl)
  have hlegal : Act.Legal ⟨s,.line i line⟩ := ⟨hactive,hline.short,hline.oneLine⟩
  have hmessage : Act.message ⟨s,.line i line⟩ = some (messageText name (beforeReturn line)) := by
    simp [Act.message,hin,hline.plain]
  have houtcome : Outcome s i (Act.after ⟨s,.line i line⟩) [] [messageText name (beforeReturn line)] :=
    (message_spoken hs hlegal hmessage).2.1
  refine ⟨fun j hj hj' => houtcome.told_texts hj hj',fun fd text htext => ?_⟩
  by_cases hfd : fd = (s.clients i).fd
  · subst hfd
    change text ∈ newTexts s _ _ at htext
    rw [houtcome.own_texts] at htext
    contradiction
  by_cases hmember : ∃ j, j ≠ i ∧ (s.room j).isSome = true ∧ (s.clients j).fd = fd
  · obtain ⟨j,hj,hj',rfl⟩ := hmember
    change text ∈ newTexts s _ _ at htext
    rw [houtcome.told_texts hj hj'] at htext
    exact List.mem_singleton.mp htext
  · change text ∈ newTexts s _ _ at htext
    rw [houtcome.no_texts hfd (fun j hj hj' heq => hmember ⟨j,hj,hj',heq⟩)] at htext
    contradiction

/-- A short line that is no command and has no special bytes. -/
theorem sayable_of_plain (hshort : line.length+1 < bufferSize)
    (hbytes : ∀ c ∈ line, c ≠ newline ∧ c ≠ 0 ∧ c ≠ 13) (hplain : line ∉ commands) :
    Sayable line ∧ beforeReturn line = line := by
  have hreturn : beforeReturn line = line := by
    refine List.takeWhile_eq_self_iff.mpr (fun c hc => ?_)
    simpa using (hbytes c hc).2.2
  refine ⟨⟨hshort,fun h => (hbytes _ h).1 rfl,fun h => (hbytes _ h).2.1 rfl,?_⟩,hreturn⟩
  rwa [hreturn]

/-- No command holds a colon. -/
theorem not_command (h : 58 ∈ line) : line ∉ commands := by
  have hnone : ∀ command ∈ commands, (58 : UInt8) ∉ command := by decide
  exact fun hmem => hnone line hmem h

/-- If a name goes on with the colon behind another one, the two members can say a line that reads
the same. -/
theorem not_clear_of_prefix (hs : s.Sound) (htyped : ∀ i name, s.room i = some name → TypedName name)
    (hne : i ≠ j) (hi : s.room i = some name) (hj : s.room j = some other)
    (hbegins : name ++ colon <+: other) : ¬ s.AuthorsClear := by
  intro hclear
  obtain ⟨more,rfl,hboth⟩ := tagged_both hbegins (ascii "x\n")
  have hname := hs.names j _ hj
  have htail : ascii ": x" = [58,32,120] := by decide
  have hbytes : ∀ c ∈ more ++ ascii ": x", c ≠ newline ∧ c ≠ 0 ∧ c ≠ 13 := by
    intro c hc
    rcases List.mem_append.mp hc with hc | hc
    · have hmem : c ∈ name ++ colon ++ more := List.mem_append_right _ hc
      exact ⟨ne_of_mem_of_not_mem hmem hname.oneLine,ne_of_mem_of_not_mem hmem (htyped j _ hj).cString,
        ne_of_mem_of_not_mem hmem (htyped j _ hj).noReturn⟩
    · have htext : ∀ c ∈ ascii ": x", c ≠ newline ∧ c ≠ 0 ∧ c ≠ 13 := by decide +kernel
      exact htext c hc
  have hlength : (more ++ ascii ": x").length+1 < bufferSize := by
    have hshort := hname.short
    rw [List.length_append] at hshort
    rw [List.length_append,htail]
    unfold usernameSize at hshort
    change more.length+3+1 < 4096
    omega
  obtain ⟨hsay,hreturn⟩ := sayable_of_plain hlength hbytes (not_command (by rw [htail]; simp))
  obtain ⟨hsay',hreturn'⟩ := sayable_of_plain (by decide : (ascii "x").length+1 < bufferSize)
    (by decide +kernel) (by decide)
  have htold := (told_message hs hi hsay).1 j hne.symm (by rw [hj]; rfl)
  have htold' := (told_message hs hj hsay').1 i hne (by rw [hi]; rfl)
  have hsame : messageText name (more ++ ascii ": x") =
      messageText (name ++ colon ++ more) (ascii "x") := by
    rw [messageText_tagged,messageText_tagged]
    have hend : ascii "x" ++ ascii "\n" = ascii "x\n" := by decide
    have hrest : more ++ ascii ": x" ++ ascii "\n" = tagged colon more (ascii "x\n") := by
      have hsplit : ascii ": x" ++ ascii "\n" = colon ++ ascii "x\n" := by decide
      rw [tagged,List.append_assoc,hsplit,List.append_assoc]
    rw [hrest,hend]
    exact hboth
  rw [hreturn,hsame] at htold
  rw [hreturn'] at htold'
  exact hclear i j _ _ _ _ _ hne (by rw [hi]; rfl) (by rw [hj]; rfl) hsay hsay'
    (by rw [htold]; exact List.mem_singleton_self _) (by rw [htold']; exact List.mem_singleton_self _)

/-- A line tells its author in the states in which the names are apart, and in no others. -/
theorem clear_iff_apart (hs : s.Sound) (htyped : ∀ i name, s.room i = some name → TypedName name) :
    s.AuthorsClear ↔ s.NamesApart := by
  constructor
  · intro hclear i j name other hne hi hj
    constructor
    · exact fun hbegins => not_clear_of_prefix hs htyped hne hi hj hbegins hclear
    · exact fun hbegins => not_clear_of_prefix hs htyped hne.symm hj hi hbegins hclear
  · intro hapart i j line line' fd fd' text hne hin hin' hline hline' htold htold'
    obtain ⟨name,hi⟩ := Option.isSome_iff_exists.mp hin
    obtain ⟨other,hj⟩ := Option.isSome_iff_exists.mp hin'
    have htext := (told_message hs hi hline).2 fd text htold
    have htext' := (told_message hs hj hline').2 fd' text htold'
    rw [htext,messageText_tagged,messageText_tagged] at htext'
    obtain ⟨rfl,-⟩ := tagged_injective colon_unbordered (hapart i j name other hne hi hj) htext'
    exact hne (hs.distinct i j name hi hj)

end Messages

/-- The lines that are broadcast tell who has written them exactly in the states in which no name
goes on with the colon behind another one; and they do in every run in which nobody logs in under a
name for which that fails. -/
theorem authors_clear {s : Server} (hs : groupChat.Reachable s) :
    (s.AuthorsClear ↔ s.NamesApart) ∧
    (groupChat.ReachableUnder Server.AdmitsApart s → s.AuthorsClear) := by
  have hiff := clear_iff_apart (reachable_sound hs) (reachable_typed hs)
  exact ⟨hiff,fun hadmits => hiff.mpr (reachable_namesApart hadmits)⟩

/-- Two clients log in under the given names. -/
def twoNames (name other : String) : List Entry :=
  [.connection 5,.connection 6,.bytes 5 (name ++ "\n"),.bytes 6 (other ++ "\n")]

theorem authors_clear_twoNames :
    ∃ s, groupChat.run (twoNames "a" "b") (Server.boot 3) = some s ∧ s.AuthorsClear := by
  have hrun : (groupChat.run (twoNames "a" "b") (Server.boot 3)).isSome = true := by decide
  obtain ⟨s,hs⟩ := Option.isSome_iff_exists.mp hrun
  have hend : (groupChat.run (twoNames "a" "b") (Server.boot 3)).map (fun s =>
      (s.online,s.room slotOne,s.room slotTwo)) =
        some ([slotOne,slotTwo],some (ascii "a"),some (ascii "b")) := by decide
  rw [hs] at hend
  obtain ⟨honline,hone,htwo⟩ : s.online = [slotOne,slotTwo] ∧ s.room slotOne = some (ascii "a") ∧
      s.room slotTwo = some (ascii "b") := by simpa using hend
  have hreach : groupChat.Reachable s := .of_run (.init ⟨3,rfl⟩) hs
  refine ⟨s,hs,(authors_clear hreach).1.mpr ?_⟩
  intro i j name other hne hi hj
  have hi' : i ∈ s.online := room_isSome.mp (by rw [hi]; rfl)
  have hj' : j ∈ s.online := room_isSome.mp (by rw [hj]; rfl)
  simp only [honline,List.mem_cons,List.not_mem_nil,or_false] at hi' hj'
  have hapart : TagsApart colon (ascii "a") (ascii "b") := by decide
  rcases hi' with rfl | rfl <;> rcases hj' with rfl | rfl
  · exact absurd rfl hne
  · obtain rfl := Option.some.inj (hone.symm.trans hi)
    obtain rfl := Option.some.inj (htwo.symm.trans hj)
    exact hapart
  · obtain rfl := Option.some.inj (htwo.symm.trans hi)
    obtain rfl := Option.some.inj (hone.symm.trans hj)
    exact hapart.symm
  · exact absurd rfl hne

/-- What a member called `a` says as `b: c` reads like what one called `a: b` says as `c`. -/
theorem impostor_unclear : ¬ ∀ s, groupChat.Reachable s → s.AuthorsClear := by
  intro h
  have hrun : (groupChat.run (twoNames "a" "a: b") (Server.boot 3)).isSome = true := by decide
  obtain ⟨s,hs⟩ := Option.isSome_iff_exists.mp hrun
  have hend : (groupChat.run (twoNames "a" "a: b") (Server.boot 3)).map (fun s =>
      (s.room slotOne,s.room slotTwo)) = some (some (ascii "a"),some (ascii "a: b")) := by decide
  rw [hs] at hend
  obtain ⟨hone,htwo⟩ : s.room slotOne = some (ascii "a") ∧ s.room slotTwo = some (ascii "a: b") := by
    simpa using hend
  have hreach : groupChat.Reachable s := .of_run (.init ⟨3,rfl⟩) hs
  exact not_clear_of_prefix (reachable_sound hreach) (reachable_typed hreach) (by decide) hone htwo
    (by decide) (h s hreach)

end NetLab.GroupChat
