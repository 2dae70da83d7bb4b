import NetLab.GroupChat.Membership
import NetLab.GroupChat.Texts

/-! A member who stays: it keeps its connection, its lines are its messages, and what the others say
is among the texts that it is sent. -/
namespace NetLab.GroupChat

/-- The line of the client in slot `j` that an act handles. -/
def Act.lineOf (j : Slot) (a : Act) : Option Bytes :=
  match a.move with
  | .line i line => if i = j then some line else none
  | _ => none

section Connections

variable {s t : Server} {as : List Act} {a : Act} {k : Slot} {name : Bytes}

/-- The slot keeps its descriptor and the descriptor its connection. -/
structure KeepsConnection (k : Slot) (s t : Server) : Prop where
  fd : (t.clients k).fd = (s.clients k).fd
  conn : t.fds (s.clients k).fd = s.fds (s.clients k).fd

theorem keepsConnection_sockets (hfd : (t.sockets.slots k).fd = (s.sockets.slots k).fd)
    (hconn : t.sockets.conns (s.sockets.slots k).fd = s.sockets.conns (s.sockets.slots k).fd) :
    KeepsConnection k s t := ⟨hfd,hconn⟩

theorem keepsConnection_closed {i : Slot} (hs : s.sockets.Consistent) (hk : (s.clients k).active = true)
    (hi : (s.clients i).active = true) (hne : k ≠ i) (h : t.sockets = s.sockets.close i) :
    KeepsConnection k s t := by
  have hfd : (s.sockets.slots k).fd ≠ (s.sockets.slots i).fd := fd_ne hs hi hk hne
  refine keepsConnection_sockets ?_ ?_
  · rw [h,Sockets.close_slots_of_ne hne]
  · rw [h]
    exact Function.update_of_ne hfd _ _

/-- A descriptor that is about to be opened is not that of a member. -/
theorem member_fd_ne (hs : s.Sound) (hin : (s.room k).isSome = true) {fd : ℤ}
    (hunused : s.fds fd = none) : (s.clients k).fd ≠ fd := by
  rintro rfl
  have hopen : (s.fds (s.clients k).fd).isSome = true := hs.sockets.opened k (room_active hin)
  rw [hunused] at hopen
  contradiction

theorem Idle.keepsConnection (h : Idle s t) (hs : s.Sound) (hin : (s.room k).isSome = true) :
    KeepsConnection k s t := by
  refine ⟨h.fd hin,?_⟩
  cases h with
  | say fd text htext => rfl
  | buffer i buffer => rfl
  | close i hactive hout =>
    have hne : k ≠ i := by
      rintro rfl
      rw [hout] at hin
      contradiction
    exact (keepsConnection_closed hs.sockets (room_active hin) hactive hne
      (disconnectClient_sockets hactive)).conn
  | connect i fd hfree hunused => exact Function.update_of_ne (member_fd_ne hs hin hunused) _ _
  | openFd fd hunused =>
    have hne := member_fd_ne hs hin hunused
    change Function.update (Function.update s.fds fd (some s.accepted)) fd none _ = _
    rw [Function.update_of_ne hne,Function.update_of_ne hne]

theorem Act.Legal.keepsConnection (ha : a.Legal) (hs : a.before.Sound)
    (hin : (a.before.room k).isSome = true) (hstill : (a.after.room k).isSome = true) :
    KeepsConnection k a.before a.after := by
  obtain ⟨s,move⟩ := a
  -- The connection of the slot is closed at most, which is then not that of the member.
  have hclosed : ∀ t : Server, Act.after ⟨s,move⟩ = t → t.sockets = s.sockets.close move.slot →
      KeepsConnection k s t := by
    intro t ht hclose
    refine keepsConnection_closed hs.sockets (room_active hin) ha.active ?_ hclose
    rintro rfl
    have hfree : (t.sockets.slots move.slot).active = false := by
      rw [hclose,Sockets.close_slots_self]
      rfl
    rw [ht] at hstill
    exact Bool.noConfusion (hfree.symm.trans (room_active hstill))
  cases move with
  | line i line =>
    rcases processLine_sockets ha.active line with ⟨hsame,-⟩ | hclose
    · exact keepsConnection_sockets (congrArg (fun x => (x.slots k).fd) hsame)
        (congrArg (fun x => x.conns (s.clients k).fd) hsame)
    · exact hclosed _ rfl hclose
  | fin i => exact hclosed _ rfl (handleFin_sockets ha.active _)
  | lost i => exact hclosed _ rfl (disconnectClient_sockets ha.active)

theorem KeepsConnection.trans {u : Server} (h : KeepsConnection k s t) (h' : KeepsConnection k t u) :
    KeepsConnection k s u where
  fd := h'.fd.trans h.fd
  conn := by
    rw [← h.fd,h'.conn,h.fd,h.conn]

/-- A member who stays keeps its connection. -/
theorem Trace.keepsConnection (h : Trace s as t) (hs : s.Sound) (hin : s.room k = some name)
    (hstay : Stays k as) : KeepsConnection k s t ∧ t.room k = some name := by
  induction h with
  | refl s => exact ⟨⟨rfl,rfl⟩,hin⟩
  | idle h _ ih =>
    have hfirst := h.keepsConnection hs (by rw [hin]; rfl)
    obtain ⟨hrest,hlast⟩ := ih (h.sound hs) (by rwa [h.room]) hstay
    exact ⟨hfirst.trans hrest,hlast⟩
  | act a ha _ ih =>
    obtain ⟨hfirst,hrest⟩ := List.forall_mem_cons.mp hstay
    have hstill := ha.stays hs hin hfirst
    have hkept := ha.keepsConnection hs (by rw [hin]; rfl) (by rw [hstill]; rfl)
    obtain ⟨hlater,hlast⟩ := ih (ha.sound hs) hstill hrest
    exact ⟨hkept.trans hlater,hlast⟩

end Connections

section Messages

variable {s t : Server} {as : List Act} {a : Act} {j k : Slot} {name : Bytes}

/-- Who speaks in an act is the client whose act it is. -/
theorem said_slot {happening : Room.Happening Slot Bytes Bytes} {p : Slot × Bytes}
    (h : a.happening = some happening) (hsaid : happening.said = some p) : p.1 = a.slot := by
  unfold Act.happening at h
  split at h
  · obtain rfl := Option.some.inj h
    contradiction
  · obtain rfl := Option.some.inj h
    contradiction
  · obtain ⟨text,-,rfl⟩ := Option.map_eq_some_iff.mp h
    rw [← Option.some.inj hsaid]

/-- One act: what a member who stays says is its line. -/
theorem Act.Legal.spoken (ha : a.Legal) (hs : a.before.Sound) (hin : a.before.room j = some name)
    (hstay : a.happening ≠ some (.leaves j)) (hjk : j ≠ k) :
    ((Room.heardBy k a.happening.toList).filter (fun p => p.1 = j)).map Prod.snd =
      ((a.lineOf j).bind (spoken name)).toList := by
  by_cases hslot : a.slot = j
  · subst hslot
    have hmessage : a.message = (a.lineOf a.slot).bind (GroupChat.spoken name) := by
      obtain ⟨s,move⟩ := a
      cases move with
      | line i line =>
        have hname : s.room i = some name := hin
        simp [Act.message,Act.lineOf,Act.slot,Move.slot,hname,GroupChat.spoken]
      | fin i => rfl
      | lost i => rfl
    rw [happening_stays ((ha.stays hs hin hstay).trans hin.symm),← hmessage]
    cases a.message with
    | none => rfl
    | some text => simp [Room.heardBy,Room.Happening.said,hjk]
  · have hline : a.lineOf j = none := by
      obtain ⟨s,move⟩ := a
      cases move with
      | line i line => exact if_neg hslot
      | fin i => rfl
      | lost i => rfl
    rw [hline]
    cases hh : a.happening with
    | none => rfl
    | some happening =>
      cases hsaid : happening.said with
      | none => simp [Room.heardBy,hsaid]
      | some p =>
        have hp : p.1 ≠ j := fun heq => hslot ((said_slot hh hsaid).symm.trans heq)
        simp [Room.heardBy,hsaid,hp]

/-- A trace: the messages of a member who stays are its lines, without the commands. -/
theorem Trace.spoken (h : Trace s as t) (hs : s.Sound) (hin : s.room j = some name)
    (hstay : Stays j as) (hjk : j ≠ k) :
    ((Room.heardBy k (as.filterMap Act.happening)).filter (fun p => p.1 = j)).map Prod.snd =
      (as.filterMap (Act.lineOf j)).filterMap (GroupChat.spoken name) := by
  induction h with
  | refl => rfl
  | idle h _ ih => exact ih (h.sound hs) (by rwa [h.room]) hstay
  | act a ha _ ih =>
    obtain ⟨hfirst,hrest⟩ := List.forall_mem_cons.mp hstay
    have hlater := ih (ha.sound hs) (ha.stays hs hin hfirst) hrest
    rw [happenings_cons,Room.heardBy_append,List.filter_append,List.map_append,hlater,
      ha.spoken hs hin hfirst hjk,List.filterMap_cons]
    cases a.lineOf j with
    | none => rfl
    | some line =>
      rw [Option.bind_some,List.filterMap_cons]
      cases GroupChat.spoken name line <;> rfl

theorem heard_texts (a : Act) (k : Slot) :
    ((a.heard k).map Prod.snd).Sublist (a.told (a.before.clients k).fd) := by
  unfold Act.heard
  split
  · rw [List.map_map]
    exact (List.map_id _).symm ▸ List.Sublist.refl _
  · exact List.nil_sublist _

/-- What a member who stays hears is among the texts that it is sent, in this order. -/
theorem Trace.heard_texts (h : Trace s as t) (hs : s.Sound) (hin : s.room k = some name)
    (hstay : Stays k as) :
    ((as.flatMap (fun a => a.heard k)).map Prod.snd).Sublist (newTexts s t (s.clients k).fd) := by
  induction h with
  | refl => exact List.nil_sublist _
  | @idle s t u acts h ht ih =>
    have hrest := ih (h.sound hs) (by rwa [h.room]) hstay
    rw [h.fd (by rw [hin]; rfl)] at hrest
    rw [newTexts_trans (h.sent 0).1 (ht.sent (h.sound hs))]
    exact hrest.trans (List.sublist_append_right _ _)
  | @act u acts a ha ht ih =>
    obtain ⟨hfirst,hrest⟩ := List.forall_mem_cons.mp hstay
    have hstill := ha.stays hs hin hfirst
    have hlater := ih (ha.sound hs) hstill hrest
    rw [(ha.keepsConnection hs (by rw [hin]; rfl) (by rw [hstill]; rfl)).fd] at hlater
    rw [newTexts_trans (ha.sent hs) (ht.sent (ha.sound hs)),List.flatMap_cons,List.map_append]
    exact (GroupChat.heard_texts a k).append hlater

end Messages

section Lines

variable {s t : Server} {e : Entry} {es : List Entry} {j : Slot} {c : ℕ} {name : Bytes}

theorem runActs_cons (h : groupChat.step s e = some t) (es : List Entry) :
    runActs (e::es) s = s.acts e ++ runActs es t := by
  have hall : ∀ es s acts, groupChat.observe (fun s e acts => acts ++ s.acts e) es s acts =
      acts ++ runActs es s := by
    intro es
    induction es with
    | nil => exact fun s acts => (List.append_nil acts).symm
    | cons e es ih =>
      intro s acts
      simp only [runActs,Machine.observe]
      cases groupChat.step s e with
      | none => exact (List.append_nil acts).symm
      | some t => simp only [ih,List.nil_append,List.append_assoc]
  rw [runActs,Machine.observe_cons h,hall,List.nil_append]

theorem calls_slot {i : Slot} {bytes : Bytes} (h : s.received e = some (i,bytes)) :
    ∀ call ∈ s.calls e, call.2 = i := by
  intro call hcall
  simp only [Server.calls,h] at hcall
  split_ifs at hcall
  · contradiction
  · obtain ⟨first,-,rfl⟩ := List.mem_map.mp hcall
    rfl

/-- The lines that an event hands over from a connection are those of its acts. -/
theorem lineOf_acts (hs : s.sockets.Consistent) (hj : s.sockets.Holds j c) (x : InputLog) :
    ∃ lines, ((socketServer.tap c).note s e x).handed.map Prod.snd = x.handed.map Prod.snd ++ lines ∧
      (s.acts e).filterMap (Act.lineOf j) = lines.map cstr := by
  have hslot : s.sockets.slotOf c = some j := hj.slotOf hs
  cases hrecv : s.received e with
  | none =>
    refine ⟨[],?_,?_⟩
    · have hchunk : (socketServer.tap c).chunk s e = none := by
        simp [SocketServer.tap,socketServer,hrecv]
      simp [Tap.note,hchunk]
    · have hquiet : ∀ a ∈ s.acts e, a.lineOf j = none := by
        intro a ha
        simp only [Server.acts,hrecv] at ha
        split_ifs at ha
        · contradiction
        · split at ha
          · obtain rfl := List.mem_singleton.mp ha
            rfl
          · obtain rfl := List.mem_singleton.mp ha
            rfl
          · contradiction
      exact List.filterMap_eq_nil_iff.mpr hquiet
  | some p =>
    obtain ⟨i,bytes⟩ := p
    have hcalls := calls_slot hrecv
    have hacts : s.acts e = (s.calls e).map (fun call => actOf call.2 call.1) := by
      simp only [Server.acts,hrecv]
      rfl
    by_cases hij : i = j
    · subst hij
      refine ⟨(s.calls e).map (fun call => call.1.line),?_,?_⟩
      · have hchunk : (socketServer.tap c).chunk s e = some bytes := by
          have hrecv' : socketServer.recv s e = some (i,bytes) := hrecv
          simp only [SocketServer.tap,hrecv']
          exact if_pos hslot
        have htaken : (socketServer.tap c).taken s e =
            (s.calls e).map (fun call => call.1.taken (reader call.2)) := rfl
        simp only [Tap.note,hchunk,InputLog.note,htaken,List.map_append,List.map_map]
        rfl
      · rw [hacts,List.filterMap_map,List.map_map,← List.filterMap_eq_map]
        refine List.filterMap_congr fun call hcall => ?_
        exact if_pos (hcalls call hcall)
    · refine ⟨[],?_,?_⟩
      · have hchunk : (socketServer.tap c).chunk s e = none := by
          have hrecv' : socketServer.recv s e = some (i,bytes) := hrecv
          simp only [SocketServer.tap,hrecv']
          exact if_neg fun h => hij (Option.some.inj (h.symm.trans hslot))
        simp [Tap.note,hchunk]
      · rw [hacts,List.filterMap_map]
        refine List.filterMap_eq_nil_iff.mpr fun call hcall => ?_
        exact if_neg fun h => hij ((hcalls call hcall).symm.trans h)

/-- A run: the lines handed over from the connection of a member who stays are those of its acts. -/
theorem lineOf_run (hs : groupChat.Reachable s) (hrun : groupChat.run es s = some t)
    (hj : s.sockets.Holds j c) (hin : s.room j = some name) (hstay : Stays j (runActs es s))
    (x : InputLog) :
    ∃ lines, (groupChat.observe (socketServer.tap c).note es s x).handed.map Prod.snd =
        x.handed.map Prod.snd ++ lines ∧
      (runActs es s).filterMap (Act.lineOf j) = lines.map cstr := by
  induction es generalizing s x with
  | nil => exact ⟨[],(List.append_nil _).symm,rfl⟩
  | cons e es ih =>
    obtain ⟨u,hu,hrun⟩ := Option.bind_eq_some_iff.mp hrun
    obtain ⟨hfits,rfl⟩ := groupChat_step.mp hu
    rw [runActs_cons hu] at hstay
    obtain ⟨hfirst,hrest⟩ := List.forall_mem_append.mp hstay
    have hsound := reachable_sound hs
    obtain ⟨hkept,hstill⟩ := (handleEntry_trace hfits).keepsConnection hsound hin hfirst
    have hj' : (s.handleEntry e).sockets.Holds j c := by
      refine ⟨room_active (by rw [hstill]; rfl),?_⟩
      have hconn : (s.handleEntry e).fds (s.clients j).fd = some c := hkept.conn.trans hj.2
      rwa [← hkept.fd] at hconn
    obtain ⟨now,hnow,hacts⟩ := lineOf_acts (e := e) hsound.sockets hj x
    obtain ⟨later,hlater,hmore⟩ := ih (.step hs trivial hu) hrun hj' hstill hrest
      ((socketServer.tap c).note s e x)
    refine ⟨now ++ later,?_,?_⟩
    · rw [Machine.observe_cons hu,hlater,hnow,List.append_assoc]
    · rw [runActs_cons hu,List.filterMap_append,hacts,hmore,List.map_append]

end Lines

end NetLab.GroupChat
