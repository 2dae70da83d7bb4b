import NetLab.Foundation.Hub
import NetLab.Foundation.Sockets

/-! A server with slots and descriptors as a hub: its streams are its connections, by the order in
which they were accepted, and a text that it sends to a descriptor goes into the stream of the
connection that is open under it. -/
namespace NetLab

/-- The texts of a log that went to one descriptor, one after the other. -/
def sentTo (log : List (ℤ × Bytes)) (fd : ℤ) : Bytes :=
  (log.filter (fun p => p.1 = fd)).flatMap Prod.snd

@[simp] theorem sentTo_nil (fd : ℤ) : sentTo [] fd = [] := rfl

@[simp] theorem sentTo_append (log log' : List (ℤ × Bytes)) (fd : ℤ) :
    sentTo (log ++ log') fd = sentTo log fd ++ sentTo log' fd := by
  simp [sentTo]

namespace Sockets

variable {n : ℕ} {x y : Sockets n} {i : Fin n} {c : ℕ} {fd : ℤ}

/-- A connection is closed with the descriptor that it is open under, and with no other. -/
theorem close_open (hx : x.Consistent) (h : x.conns fd = some c) :
    (x.close i).conns fd = some c ∨ (x.close i).Gone c := by
  by_cases hfd : fd = (x.slots i).fd
  · right
    refine ⟨hx.numbered fd c h,fun g hg => ?_⟩
    obtain ⟨hold,hne⟩ := close_conns i hg
    exact hne (by rw [← hfd]; exact hx.distinct g fd c hold h)
  · exact Or.inl ((Function.update_of_ne hfd _ _).trans h)

theorem Step.keeps_open (hs : Step x y) (hx : x.Consistent) (h : x.conns fd = some c) :
    y.conns fd = some c ∨ y.Gone c := by
  cases hs with
  | close i hi => exact close_open hx h
  | connect i g hfree hunused =>
    have hne : fd ≠ g := by
      rintro rfl
      rw [hunused] at h
      contradiction
    exact Or.inl ((Function.update_of_ne hne _ _).trans h)
  | refuse => exact Or.inl h

theorem Steps.keeps_open (hs : Relation.ReflTransGen Step x y) (hx : x.Consistent)
    (h : x.conns fd = some c) : y.conns fd = some c ∨ y.Gone c := by
  induction hs with
  | refl => exact Or.inl h
  | tail hpast hstep ih =>
    rcases ih with hopen | hgone
    · exact hstep.keeps_open (Steps.status hx hpast 0).1 hopen
    · exact Or.inr (hgone.step hstep)

theorem Steps.gone (hs : Relation.ReflTransGen Step x y) (h : x.Gone c) : y.Gone c := by
  induction hs with
  | refl => exact h
  | tail _ hstep ih => exact ih.step hstep

theorem Works.keeps_open (hw : Relation.ReflTransGen (Work i) x y) (hx : x.Consistent)
    (h : x.conns fd = some c) : y.conns fd = some c ∨ y.Gone c := by
  induction hw with
  | refl => exact Or.inl h
  | tail hpast hstep ih =>
    rcases ih with hopen | hgone
    · cases hstep with
      | close j hj => exact close_open (Works.consistent hx hpast) hopen
      | buffer buffer => exact Or.inl hopen
    · exact Or.inr (hstep.gone hgone)

/-- An open connection is not gone. -/
theorem Gone.not_open (h : x.Gone c) : x.conns fd ≠ some c := h.2 fd

end Sockets

namespace SocketServer

variable {σ ι : Type*} {n : ℕ}

/-- The connection of a descriptor; a descriptor that is not open yet is that of the connection
which the step accepts. -/
def route (S : SocketServer σ ι n) (s : σ) (fd : ℤ) : ℕ :=
  ((S.sockets s).conns fd).getD (S.sockets s).accepted

/-- The server at the hub of its connections; `sent` is the log of what it has sent. -/
def hub (S : SocketServer σ ι n) (sent : σ → List (ℤ × Bytes)) : Hub σ ι UInt8 where
  machine := S.machine
  takes s a := (S.recv s a).bind fun p =>
    ((S.sockets s).conns ((S.sockets s).slots p.1).fd).map fun c => (c,p.2)
  puts s t c := (((sent t).drop (sent s).length).filter (fun p => S.route s p.1 = c)).flatMap Prod.snd

variable {S : SocketServer σ ι n} {sent : σ → List (ℤ × Bytes)} {s t u : σ} {a : ι} {as : List ι}
  {i : Fin n} {c : ℕ} {fd : ℤ}

section Streams

/-- A connection that is open and is so again later has been open meanwhile. -/
theorem Lawful.open_step (hS : S.Lawful) (hs : S.machine.Reachable s)
    (hu : S.machine.step s a = some u) (hopen : (S.sockets s).conns fd = some c) :
    (S.sockets u).conns fd = some c ∨ (S.sockets u).Gone c := by
  have hcons := hS.consistent hs
  cases hrecv : S.recv s a with
  | none => exact Sockets.Steps.keeps_open (hS.quiet s a u hu hrecv) hcons hopen
  | some p => exact Sockets.Works.keeps_open (hS.works hu hrecv) hcons hopen

theorem Lawful.gone_run (hS : S.Lawful) (hrun : S.machine.run as s = some t)
    (hgone : (S.sockets s).Gone c) : (S.sockets t).Gone c := by
  induction as generalizing s with
  | nil =>
    obtain rfl : s = t := by simpa using hrun
    exact hgone
  | cons a as ih =>
    obtain ⟨u,hu,hrun⟩ := Option.bind_eq_some_iff.mp hrun
    refine ih hrun ?_
    cases hrecv : S.recv s a with
    | none => exact Sockets.Steps.gone (hS.quiet s a u hu hrecv) hgone
    | some p => exact Sockets.Works.gone (hS.works hu hrecv) hgone

theorem Lawful.open_between (hS : S.Lawful) (hs : S.machine.Reachable s)
    (hu : S.machine.step s a = some u) (hrun : S.machine.run as u = some t)
    (hopen : (S.sockets s).conns fd = some c) (hlast : (S.sockets t).conns fd = some c) :
    (S.sockets u).conns fd = some c :=
  (hS.open_step hs hu hopen).resolve_right fun hgone => (hS.gone_run hrun hgone).not_open hlast

/-- What the hub takes from the stream of a connection is the chunk that the connection gets. -/
theorem Lawful.takesFrom_eq (hS : S.Lawful) (hs : S.machine.Reachable s)
    (hu : S.machine.step s a = some u) :
    (S.hub sent).takesFrom c s a = ((S.tap c).chunk s a).getD [] := by
  have hcons := hS.consistent hs
  simp only [Hub.takesFrom,hub,SocketServer.tap]
  cases hrecv : S.recv s a with
  | none => rfl
  | some p =>
    obtain ⟨i,bytes⟩ := p
    have hactive := (hS.size s a u i bytes hu hrecv).2.2
    obtain ⟨d,hd⟩ := Option.isSome_iff_exists.mp (hcons.opened i hactive)
    have hholds : (S.sockets s).Holds i d := ⟨hactive,hd⟩
    have hslot := hholds.slotOf hcons
    simp only [Option.bind_some,hd,Option.map_some]
    by_cases hc : d = c
    · subst hc
      simp [hslot]
    · have hother : (S.sockets s).slotOf c ≠ some i := by
        intro hslot
        have heq := (Sockets.slotOf_some hslot).2
        rw [hd] at heq
        exact hc (Option.some.inj heq)
      simp [hc,hother]

/-- What the hub takes from the stream of a connection in a run is what the connection's log says
has been received. -/
theorem Lawful.taken_eq_received (hS : S.Lawful) (hs : S.machine.Reachable s)
    (hrun : S.machine.run as s = some t) :
    ((S.tap c).log S.machine as s).received = (S.hub sent).taken c as s := by
  have hall : ∀ x, (S.machine.observe (S.tap c).note as s x).received =
      x.received ++ (S.hub sent).taken c as s := by
    induction as generalizing s with
    | nil => exact fun x => (List.append_nil _).symm
    | cons a as ih =>
      intro x
      obtain ⟨u,hu,hrun⟩ := Option.bind_eq_some_iff.mp hrun
      have hstep : (S.hub sent).machine.step s a = some u := hu
      rw [Machine.observe_cons hu,ih (.step hs trivial hu) hrun]
      simp only [Hub.taken,hstep,hS.takesFrom_eq hs hu,Tap.note]
      cases (S.tap c).chunk s a with
      | none => rfl
      | some bytes => exact List.append_assoc _ _ _
  exact hall .empty

/-- What the hub puts into the stream of a connection is what it sends to the descriptor. -/
theorem Lawful.puts_eq (hS : S.Lawful) (hs : S.machine.Reachable s)
    (hopen : (S.sockets s).conns fd = some c) :
    (S.hub sent).puts s u c = sentTo ((sent u).drop (sent s).length) fd := by
  have hcons := hS.consistent hs
  have hroute : ∀ g, S.route s g = c ↔ g = fd := by
    intro g
    unfold route
    cases hg : (S.sockets s).conns g with
    | none =>
      have hlt := hcons.numbered fd c hopen
      refine ⟨fun h => absurd hlt (by simp [← h]),?_⟩
      rintro rfl
      rw [hopen] at hg
      contradiction
    | some d =>
      refine ⟨fun h => hcons.distinct g fd c (by rw [hg]; exact congrArg some h) hopen,?_⟩
      rintro rfl
      exact Option.some.inj (hg.symm.trans hopen)
  simp only [hub,sentTo,hroute]

/-- What the hub puts into the stream of a connection in a run, at whose end the connection is
open. -/
theorem Lawful.given_eq (hS : S.Lawful)
    (hsent : ∀ s a t, S.machine.step s a = some t → sent s <+: sent t)
    (hs : S.machine.Reachable s) (hrun : S.machine.run as s = some t)
    (hopen : (S.sockets s).conns fd = some c) (hlast : (S.sockets t).conns fd = some c) :
    sent s <+: sent t ∧
      (S.hub sent).given c as s = sentTo ((sent t).drop (sent s).length) fd := by
  induction as generalizing s with
  | nil =>
    obtain rfl : s = t := by simpa using hrun
    exact ⟨List.prefix_rfl,by simp [Hub.given]⟩
  | cons a as ih =>
    obtain ⟨u,hu,hrun⟩ := Option.bind_eq_some_iff.mp hrun
    have hstep : (S.hub sent).machine.step s a = some u := hu
    obtain ⟨⟨later,hlater⟩,hgiven⟩ := ih (.step hs trivial hu) hrun
      (hS.open_between hs hu hrun hopen hlast)
    obtain ⟨first,hfirst⟩ := hsent s a u hu
    have hall : sent t = sent s ++ (first ++ later) := by
      rw [← hlater,← hfirst,List.append_assoc]
    refine ⟨⟨_,hall.symm⟩,?_⟩
    rw [← hlater,List.drop_left] at hgiven
    simp only [Hub.given,hstep]
    rw [hgiven,hS.puts_eq hs hopen,hall,List.drop_left,← hfirst,List.drop_left,sentTo_append]

/-- What the hub puts into its streams it has in its log. -/
theorem mem_of_mem_given (hsent : ∀ s a t, S.machine.step s a = some t → sent s <+: sent t)
    (hrun : S.machine.run as s = some t) :
    sent s <+: sent t ∧ ∀ x ∈ (S.hub sent).given c as s, ∃ p ∈ sent t, x ∈ p.2 := by
  induction as generalizing s with
  | nil =>
    obtain rfl : s = t := by simpa using hrun
    exact ⟨List.prefix_rfl,fun x hx => by contradiction⟩
  | cons a as ih =>
    obtain ⟨u,hu,hrun⟩ := Option.bind_eq_some_iff.mp hrun
    have hstep : (S.hub sent).machine.step s a = some u := hu
    obtain ⟨hlater,hrest⟩ := ih hrun
    refine ⟨(hsent s a u hu).trans hlater,fun x hx => ?_⟩
    simp only [Hub.given,hstep] at hx
    rcases List.mem_append.mp hx with hx | hx
    · obtain ⟨p,hp,hxp⟩ := List.mem_flatMap.mp hx
      exact ⟨p,hlater.subset (List.mem_of_mem_drop (List.mem_of_mem_filter hp)),hxp⟩
    · exact hrest x hx

end Streams

end SocketServer

end NetLab
