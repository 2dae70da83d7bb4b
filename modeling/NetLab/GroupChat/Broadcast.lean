import NetLab.GroupChat.Traces

/-! What the members of the group chat hear of each other's messages: each message once, and all of
them in one order. -/
namespace NetLab.GroupChat

/-- What the member in slot `k` hears of the message that an act is, with the slot of its sender. -/
def Act.heard (a : Act) (k : Slot) : List (Slot × Bytes) :=
  match a.happening with
  | some (.speaks who _) => (a.told (a.before.clients k).fd).map (fun text => (who,text))
  | _ => []

/-- In none of the acts the member in slot `k` leaves. -/
def Stays (k : Slot) (acts : List Act) : Prop := ∀ a ∈ acts, a.happening ≠ some (.leaves k)

instance (k : Slot) (acts : List Act) : Decidable (Stays k acts) := by
  unfold Stays
  infer_instance

section Hearing

variable {s t : Server} {k : Slot} {as : List Act} {a : Act}

/-- One act: the others hear its message as it is, the sender does not. -/
theorem Act.Legal.heard (ha : a.Legal) (hs : a.before.Sound)
    (hin : (a.before.room k).isSome = true) :
    a.heard k = Room.heardBy k a.happening.toList := by
  obtain ⟨own,told,hdid,houtcome,-⟩ := ha.explained hs
  unfold Act.heard
  cases hh : a.happening with
  | none => rfl
  | some happening =>
    rw [hh] at hdid
    cases hdid with
    | joined name hname => rfl
    | left name hname => rfl
    | ended name hname => rfl
    | lost name hname hmove => rfl
    | spoke name line hname =>
      by_cases hk : k = a.slot
      · subst hk
        simp [Act.told,houtcome.own_texts,Room.heardBy,Room.Happening.said]
      · simp [Act.told,houtcome.told_texts hk hin,Room.heardBy,Room.Happening.said,Ne.symm hk]

/-- A trace: who stays hears the messages of the others, each once and in their order. -/
theorem Trace.heard (h : Trace s as t) (hs : s.Sound) (hin : (s.room k).isSome = true)
    (hstay : Stays k as) : as.flatMap (fun a => a.heard k) =
      Room.heardBy k (as.filterMap Act.happening) := by
  induction h with
  | refl => rfl
  | idle h _ ih => exact ih (h.sound hs) (by rwa [h.room]) hstay
  | @act u acts a ha _ ih =>
    obtain ⟨hfirst,hrest⟩ := List.forall_mem_cons.mp hstay
    obtain ⟨name,hname⟩ := Option.isSome_iff_exists.mp hin
    have hstill : (a.after.room k).isSome = true := by
      rw [ha.stays hs hname hfirst]
      rfl
    rw [List.flatMap_cons,happenings_cons,Room.heardBy_append,ih (ha.sound hs) hstill hrest,
      ha.heard hs hin]

end Hearing

/-- The members have names of their own; a member's line, if it is no command, goes to every other
member once and to nobody else; and who stays hears the messages of the others as they were made,
so that two who stay hear them in one order. -/
theorem broadcasts_once_in_order {s : Server} (hs : groupChat.Reachable s) :
    (∀ i name, s.room i = some name → name ≠ []) ∧ s.room.Distinct ∧
    (∀ e, e.Fits s → ∀ a ∈ s.acts e, ∀ line name, a.move = .line a.slot line →
      a.before.room a.slot = some name → beforeReturn line ∉ commands →
      (∀ j, j ≠ a.slot → (a.before.room j).isSome = true →
        a.told (a.before.clients j).fd = [messageText name (beforeReturn line)]) ∧
      (∀ fd, (∀ j, j ≠ a.slot → (a.before.room j).isSome = true → (a.before.clients j).fd ≠ fd) →
        a.told fd = [])) ∧
    (∀ es t k l, groupChat.run es s = some t → (s.room k).isSome = true →
      (s.room l).isSome = true → Stays k (runActs es s) → Stays l (runActs es s) →
      (runActs es s).flatMap (fun a => a.heard k) =
        Room.heardBy k ((runActs es s).filterMap Act.happening) ∧
      ((runActs es s).flatMap (fun a => a.heard k)).filter (fun p => p.1 ≠ l) =
        ((runActs es s).flatMap (fun a => a.heard l)).filter (fun p => p.1 ≠ k)) := by
  have hsound := reachable_sound hs
  refine ⟨fun i name hi => (hsound.names i name hi).nonempty,hsound.distinct,?_,?_⟩
  · intro e hfits a ha line name hmove hname hplain
    obtain ⟨hlegal,hbefore⟩ := (handleEntry_trace hfits).act_sound hsound a ha
    have hmessage : a.message = some (messageText name (beforeReturn line)) := by
      simp [Act.message,hmove,hname,hplain]
    obtain ⟨-,houtcome,-⟩ := message_spoken hbefore hlegal hmessage
    refine ⟨fun j hj hin => houtcome.told_texts hj hin,fun fd hnone => ?_⟩
    by_cases hfd : fd = (a.before.clients a.slot).fd
    · rw [hfd]
      exact houtcome.own_texts
    · exact houtcome.no_texts hfd hnone
  · intro es t k l hrun hk hl hstayk hstayl
    have htrace := run_trace hs hrun
    have hheardk := htrace.heard hsound hk hstayk
    have hheardl := htrace.heard hsound hl hstayl
    refine ⟨hheardk,?_⟩
    rw [hheardk,hheardl]
    exact Room.heardBy_order k l _

/-- A new connection under a descriptor. -/
def Entry.connection (fd : ℤ) : Entry := { fd := 3, accept := some ⟨fd,true⟩ }

/-- Bytes from the client under a descriptor. -/
def Entry.bytes (fd : ℤ) (text : String) : Entry := { fd := fd, recv := .data (ascii text) }

/-- Three clients log in. -/
def threeMembers : List Entry :=
  [.connection 5,.connection 6,.connection 7,.bytes 5 "a\n",.bytes 6 "b\n",.bytes 7 "c\n"]

/-- They talk at the same time, the last one in two lines. -/
def threeTalk : List Entry := [.bytes 7 "x\ny",.bytes 5 "hi\n",.bytes 7 "z\n",.bytes 6 "ho\n"]

def slotOne : Slot := ⟨0,by decide⟩
def slotTwo : Slot := ⟨1,by decide⟩

theorem broadcasts_once_in_order_threeMembers : ∃ s t,
    groupChat.run threeMembers (Server.boot 3) = some s ∧ groupChat.run threeTalk s = some t ∧
    ((runActs threeTalk s).flatMap (fun a => a.heard slotOne)).filter (fun p => p.1 ≠ slotTwo) =
      ((runActs threeTalk s).flatMap (fun a => a.heard slotTwo)).filter (fun p => p.1 ≠ slotOne) := by
  have hrun : (groupChat.run threeMembers (Server.boot 3)).isSome = true := by decide
  obtain ⟨s,hs⟩ := Option.isSome_iff_exists.mp hrun
  have hstart : (groupChat.run threeMembers (Server.boot 3)).map (fun s =>
      ((s.room slotOne).isSome,(s.room slotTwo).isSome,(groupChat.run threeTalk s).isSome,
        decide (Stays slotOne (runActs threeTalk s)),decide (Stays slotTwo (runActs threeTalk s)))) =
      some (true,true,true,true,true) := by decide
  rw [hs] at hstart
  simp only [Option.map_some,Option.some.injEq,Prod.mk.injEq,decide_eq_true_eq] at hstart
  obtain ⟨hone,htwo,htalk,hstayOne,hstayTwo⟩ := hstart
  obtain ⟨t,ht⟩ := Option.isSome_iff_exists.mp htalk
  have hreach : groupChat.Reachable s := .of_run (.init ⟨3,rfl⟩) hs
  obtain ⟨-,-,-,horder⟩ := broadcasts_once_in_order hreach
  exact ⟨s,t,hs,ht,(horder threeTalk t slotOne slotTwo ht hone htwo hstayOne hstayTwo).2⟩

end NetLab.GroupChat
