import NetLab.EpollServer.Server

/-! What comes back to the clients of the echo server. It offers each read to one `write` and
forgets what is not taken, and it reads no more once the end of the stream is reported. -/
namespace NetLab.EpollServer

section Calls

variable {c : Connection} {events : Events} {read : ReadAnswer} {write : WriteAnswer}
  {calls : List Call}

theorem reads_after (c : Connection) (calls : List Call) :
    (c.after calls).reads = c.reads ++ calls.filterMap Call.data := List.filterMap_append

theorem received_after (c : Connection) (calls : List Call) :
    (c.after calls).received = c.received ++ (calls.filterMap Call.data).flatten := by
  rw [Connection.received,reads_after,List.flatten_append]
  rfl

theorem writes_after (c : Connection) (calls : List Call) :
    (c.after calls).writes = c.writes ++ calls.filterMap Call.offer := List.filterMap_append

/-- What a client's event makes the server call as long as `read` and `write` do not fail. -/
theorem handleClient_cases (hread : read ≠ .error) (hwrite : write ≠ .error) :
    (events.hangs = true ∧ handleClient events read write = [.epollDel,.close]) ∨
    (∃ bytes, read = .data bytes ∧
      handleClient events read write = [.read (.data bytes),.write bytes write]) ∨
    (read = .fin ∧ handleClient events read write = [.read .fin,.epollDel,.close]) ∨
    handleClient events read write = [.read .wouldBlock] := by
  unfold handleClient
  split_ifs with hhangs
  · exact Or.inl ⟨hhangs,rfl⟩
  · cases read with
    | data bytes =>
      refine Or.inr (Or.inl ⟨bytes,rfl,?_⟩)
      cases write with
      | error => contradiction
      | count n => rfl
      | wouldBlock => rfl
    | fin => exact Or.inr (Or.inr (Or.inl ⟨rfl,rfl⟩))
    | wouldBlock => exact Or.inr (Or.inr (Or.inr rfl))
    | error => contradiction

def Call.isRead : Call → Bool
  | .read _ => true
  | _ => false

/-- One `read`, of at most `bufSize` bytes, and what it gave offered to one `write`. -/
structure ReadsOnce (calls : List Call) : Prop where
  one : calls.countP Call.isRead = 1
  fits : ∀ bytes ∈ calls.filterMap Call.data, bytes.length ≤ bufSize
  offers : (calls.filterMap Call.offer).map Offer.text = calls.filterMap Call.data

/-- A `write` offers what it is given, whatever it answers. -/
theorem offer_text (bytes : Bytes) (write : WriteAnswer) :
    ([Call.write bytes write].filterMap Call.offer).map Offer.text = [bytes] := by
  cases write <;> rfl

/-- An event of a client that has not hung up is answered by one `read`. -/
theorem handleClient_readsOnce (hread : read ≠ .error) (hwrite : write ≠ .error)
    (hhangs : events.hangs = false) (hfits : ∀ bytes, read = .data bytes → bytes.length ≤ bufSize) :
    ReadsOnce (handleClient events read write) := by
  rcases @handleClient_cases events read write hread hwrite with ⟨hh,-⟩ | ⟨bytes,hdata,heq⟩ |
    ⟨-,heq⟩ | heq
  · rw [hhangs] at hh
    contradiction
  · rw [heq]
    refine ⟨rfl,fun b hb => ?_,offer_text bytes write⟩
    rw [List.mem_singleton.mp hb]
    exact hfits bytes hdata
  · rw [heq]
    exact ⟨rfl,by simp [Call.data],rfl⟩
  · rw [heq]
    exact ⟨rfl,by simp [Call.data],rfl⟩

end Calls

/-- The server has read the beginning of the stream, and has offered what each `read` gave to one
`write`. -/
structure Connection.Sound (c : Connection) : Prop where
  received : c.received <+: c.arrived
  echoed : c.writes.map Offer.text = c.reads

/-- The server still serves the connection. -/
structure Connection.Open (c : Connection) : Prop extends c.Sound where
  noClose : .close ∉ c.calls
  noEnd : .read .fin ∉ c.calls

/-- The server has closed the connection after the end of the stream. -/
structure Connection.Over (c : Connection) : Prop extends c.Sound where
  fin : c.fin = true
  all : .read .fin ∈ c.calls → c.received = c.arrived

structure Server.Sound (s : Server) : Prop where
  opened : ∀ fd, ∀ c ∈ s.connections fd, c.Open
  closed : ∀ c ∈ s.closed, c.Over
  pending : ∀ e ∈ s.batch, e.1 = s.listenFd ∨
    ∃ c ∈ s.connections e.1, e.2.hangs = true → c.fin = true
  distinct : (s.batch.map Prod.fst).Nodup
  smooth : ∀ e ∈ s.batch, e.2.epollhup = false ∧ e.2.epollerr = false

section Connections

variable {c : Connection} {bytes : Bytes} {write : WriteAnswer} {calls : List Call}

theorem accepted_open : Connection.accepted.Open := by
  refine ⟨⟨List.prefix_rfl,rfl⟩,?_,?_⟩ <;> exact List.not_mem_nil

/-- What is read continues what has been read before. -/
theorem received_prefix (h : c.received <+: c.arrived) (hbytes : bytes <+: c.unread) :
    c.received ++ bytes <+: c.arrived := by
  obtain ⟨rest,hrest⟩ := h
  have hunread : c.unread = rest := by rw [Connection.unread,← hrest,List.drop_left]
  rw [← hrest,List.prefix_append_right_inj,← hunread]
  exact hbytes

/-- A connection of which nothing is unread has been read as a whole. -/
theorem received_all (h : c.received <+: c.arrived) (hnone : c.unread = []) :
    c.received = c.arrived := by
  have hle : c.arrived.length ≤ c.received.length := List.drop_eq_nil_iff.mp hnone
  exact h.eq_of_length_le hle

/-- The server goes on with a connection after it has echoed. -/
theorem Connection.Open.echo (h : c.Open) (hbytes : bytes <+: c.unread) (write : WriteAnswer) :
    (c.after [.read (.data bytes),.write bytes write]).Open := by
  have hdata : [Call.read (.data bytes),.write bytes write].filterMap Call.data = [bytes] := rfl
  refine ⟨⟨?_,?_⟩,?_,?_⟩
  · rw [received_after,hdata,List.flatten_singleton]
    exact received_prefix h.received hbytes
  · have hoffer : [Call.read (.data bytes),.write bytes write].filterMap Call.offer =
        [Call.write bytes write].filterMap Call.offer := rfl
    rw [reads_after,writes_after,List.map_append,h.echoed,hoffer,offer_text,hdata]
  · simpa [Connection.after] using h.noClose
  · simpa [Connection.after] using h.noEnd

/-- Calls that neither read nor write anything. -/
theorem Connection.Sound.quiet (h : c.Sound) (hread : calls.filterMap Call.data = [])
    (hwrite : calls.filterMap Call.offer = []) : (c.after calls).Sound where
  received := by
    rw [received_after,hread,List.flatten_nil,List.append_nil]
    exact h.received
  echoed := by rw [reads_after,writes_after,hread,hwrite,List.append_nil,List.append_nil,h.echoed]

/-- A connection that is closed because its end is reported. -/
theorem Connection.Open.hangup (h : c.Open) (hfin : c.fin = true) :
    (c.after [.epollDel,.close]).Over := by
  refine ⟨h.toSound.quiet rfl rfl,hfin,fun hend => ?_⟩
  exact absurd (by simpa [Connection.after] using hend) h.noEnd

/-- A connection that is closed because `read` has returned 0. -/
theorem Connection.Open.readEnd (h : c.Open) (hnone : c.unread = []) (hfin : c.fin = true) :
    (c.after [.read .fin,.epollDel,.close]).Over := by
  refine ⟨h.toSound.quiet rfl rfl,hfin,fun _ => ?_⟩
  rw [received_after]
  change c.received ++ [] = c.arrived
  rw [List.append_nil]
  exact received_all h.received hnone

end Connections

section Steps

variable {s t : Server} {fd : ℤ} {c : Connection} {e : ℤ × Events} {rest : List (ℤ × Events)}
  {answers : Answers}

/-- The entry of one descriptor changes. -/
theorem Server.Sound.setConnection (hs : s.Sound) {entry : Option Connection}
    (hopen : ∀ c ∈ entry, c.Open) (hpending : ∀ e ∈ s.batch, e.1 = fd →
      e.1 = s.listenFd ∨ ∃ c ∈ entry, e.2.hangs = true → c.fin = true) :
    (s.setConnection fd entry).Sound where
  opened fd' c hc := by
    by_cases hfd : fd' = fd
    · subst hfd
      rw [Server.setConnection_connections_self] at hc
      exact hopen c hc
    · rw [Server.setConnection_connections_of_ne _ _ hfd] at hc
      exact hs.opened fd' c hc
  closed := hs.closed
  pending e he := by
    by_cases hfd : e.1 = fd
    · rw [hfd,Server.setConnection_connections_self,← hfd]
      exact hpending e he hfd
    · rw [Server.setConnection_connections_of_ne _ _ hfd]
      exact hs.pending e he
  distinct := hs.distinct
  smooth := hs.smooth

/-- Something comes in for a connection that is still served. -/
theorem Server.Sound.incoming (hs : s.Sound) (hc : s.connections fd = some c) {c' : Connection}
    (hcalls : c'.calls = c.calls) (harrived : c.arrived <+: c'.arrived)
    (hfin : c.fin = true → c'.fin = true) : (s.setConnection fd (some c')).Sound := by
  have hopen := hs.opened fd c hc
  have hreads : c'.reads = c.reads := by rw [Connection.reads,hcalls]; rfl
  have hwrites : c'.writes = c.writes := by rw [Connection.writes,hcalls]; rfl
  refine hs.setConnection ?_ ?_
  · rintro c'' ⟨⟩
    refine ⟨⟨?_,?_⟩,by rw [hcalls]; exact hopen.noClose,by rw [hcalls]; exact hopen.noEnd⟩
    · rw [Connection.received,hreads]
      exact hopen.received.trans harrived
    · rw [hreads,hwrites,hopen.echoed]
  · intro e he hfd
    rcases hs.pending e he with hlisten | ⟨c'',hc'',hhangs⟩
    · exact Or.inl hlisten
    · rw [hfd,hc] at hc''
      obtain rfl := Option.some.inj hc''
      exact Or.inr ⟨c',rfl,fun h => hfin (hhangs h)⟩

theorem Server.Sound.accept (hs : s.Sound) {answer : AcceptAnswer}
    (hunused : s.connections answer.fd = none) : (s.accept answer).Sound := by
  unfold Server.accept
  split_ifs
  · exact hs
  · exact hs
  · refine hs.setConnection ?_ ?_
    · rintro c ⟨⟩
      exact accepted_open
    · intro e he hfd
      rcases hs.pending e he with hlisten | ⟨c,hc,-⟩
      · exact Or.inl hlisten
      · rw [hfd,hunused] at hc
        contradiction

theorem Server.Sound.acceptLoop {answers : List AcceptAnswer} (hs : s.Sound)
    (hfit : AcceptsFit answers s) : (s.acceptLoop answers).Sound := by
  induction answers generalizing s with
  | nil => exact hs
  | cons answer answers ih =>
    obtain ⟨-,hunused,hrest⟩ := hfit
    exact ih (hs.accept hunused) hrest

/-- The connection goes on, or it is over and has been closed. -/
theorem Server.Sound.serve (hs : s.Sound) {calls : List Call} (hfd : ∀ e ∈ s.batch, e.1 ≠ fd)
    (hcalls : (.close ∉ calls ∧ (c.after calls).Open) ∨ (.close ∈ calls ∧ (c.after calls).Over)) :
    (s.serve fd c calls).Sound := by
  unfold Server.serve
  rcases hcalls with ⟨hclose,hopen⟩ | ⟨hclose,hover⟩
  · rw [if_neg hclose]
    refine hs.setConnection ?_ (fun e he heq => absurd heq (hfd e he))
    rintro c' ⟨⟩
    exact hopen
  · rw [if_pos hclose]
    have hgone : (s.setConnection fd none).Sound :=
      hs.setConnection (by simp) (fun e he heq => absurd heq (hfd e he))
    refine ⟨hgone.opened,fun c' hc' => ?_,hgone.pending,hgone.distinct,hgone.smooth⟩
    rcases List.mem_append.mp hc' with hc' | hc'
    · exact hs.closed c' hc'
    · rw [List.mem_singleton.mp hc']
      exact hover

/-- An event of a client, whose connection has hung up only if its stream has ended. -/
theorem served (h : c.Open) (hfit : answers.Fit c) (hhangs : e.2.hangs = true → c.fin = true)
    (hread : answers.read ≠ .error) (hwrite : answers.write ≠ .error) :
    (.close ∉ handleClient e.2 answers.read answers.write ∧
      (c.after (handleClient e.2 answers.read answers.write)).Open) ∨
    (.close ∈ handleClient e.2 answers.read answers.write ∧
      (c.after (handleClient e.2 answers.read answers.write)).Over) := by
  unfold Answers.Fit at hfit
  rcases handleClient_cases hread hwrite with ⟨hh,heq⟩ | ⟨bytes,hdata,heq⟩ | ⟨hend,heq⟩ | heq
  · rw [heq]
    exact Or.inr ⟨by simp,h.hangup (hhangs hh)⟩
  · rw [hdata] at hfit
    rw [heq]
    exact Or.inl ⟨by simp,h.echo hfit.2.2.1 _⟩
  · rw [hend] at hfit
    rw [heq]
    exact Or.inr ⟨by simp,h.readEnd hfit.1 hfit.2⟩
  · rw [heq]
    refine Or.inl ⟨by simp,h.toSound.quiet rfl rfl,?_,?_⟩
    · simpa [Connection.after] using h.noClose
    · simpa [Connection.after] using h.noEnd

theorem Server.Sound.handle (hs : s.Sound) (hbatch : s.batch = e::rest) (hfits : answers.Fits { s with batch := rest } e)
    (hread : answers.read ≠ .error) (hwrite : answers.write ≠ .error) :
    ({ s with batch := rest }.handleEvent e answers).Sound := by
  have hdistinct := hs.distinct
  rw [hbatch,List.map_cons,List.nodup_cons] at hdistinct
  have hrest : { s with batch := rest }.Sound :=
    ⟨hs.opened,hs.closed,fun e' he' => hs.pending e' (by rw [hbatch]; exact .tail _ he'),hdistinct.2,
      fun e' he' => hs.smooth e' (by rw [hbatch]; exact .tail _ he')⟩
  unfold Answers.Fits at hfits
  unfold Server.handleEvent
  by_cases hlisten : e.1 = s.listenFd
  · rw [if_pos hlisten] at hfits ⊢
    exact hrest.acceptLoop hfits
  · rw [if_neg hlisten] at hfits ⊢
    obtain ⟨c,hc,hhangs⟩ := (hs.pending e (by rw [hbatch]; exact List.mem_cons_self)).resolve_left
      hlisten
    have hserve : ({ s with batch := rest } : Server).connections e.1 = some c := hc
    rw [hserve]
    refine hrest.serve (fun e' he' heq => hdistinct.1 (heq ▸ List.mem_map_of_mem he')) ?_
    exact served (hs.opened _ c hc) (hfits c hc) hhangs hread hwrite

theorem Server.Sound.wait (hs : s.Sound) {batch : List (ℤ × Events)}
    (hdistinct : (batch.map Prod.fst).Nodup) (hreports : ∀ e ∈ batch, s.Reports e)
    (hsmooth : ∀ e ∈ batch, e.2.epollhup = false ∧ e.2.epollerr = false) :
    { s with batch := batch }.Sound where
  opened := hs.opened
  closed := hs.closed
  pending e he := by
    rcases hreports e he with hlisten | ⟨c,hc,hreported⟩
    · exact Or.inl hlisten
    · refine Or.inr ⟨c,hc,fun hhangs => hreported.epollrdhup ?_⟩
      simpa [Events.hangs,hsmooth e he] using hhangs
  distinct := hdistinct
  smooth := hsmooth

/-- One step without a socket error. -/
theorem Server.Sound.step (hs : s.Sound) {a : Label} (hsmooth : Smooth s a)
    (ht : s.step a = some t) : t.Sound := by
  cases a with
  | arrive fd bytes =>
    cases hc : s.connections fd with
    | none => simp [Server.step,hc] at ht
    | some c =>
      simp only [Server.step,hc] at ht
      obtain ⟨-,rfl⟩ := guarded_eq_some.mp ht
      exact hs.incoming hc rfl (List.prefix_append _ _) id
  | finish fd =>
    cases hc : s.connections fd with
    | none => simp [Server.step,hc] at ht
    | some c =>
      simp only [Server.step,hc] at ht
      obtain ⟨-,rfl⟩ := guarded_eq_some.mp ht
      exact hs.incoming hc rfl List.prefix_rfl (fun _ => rfl)
  | wait batch =>
    obtain ⟨⟨-,-,hdistinct,hreports⟩,rfl⟩ := guarded_eq_some.mp ht
    exact hs.wait hdistinct hreports hsmooth
  | handle answers =>
    cases hbatch : s.batch with
    | nil => simp [Server.step,hbatch] at ht
    | cons e rest =>
      simp only [Server.step,hbatch] at ht
      obtain ⟨hfits,rfl⟩ := guarded_eq_some.mp ht
      exact hs.handle hbatch hfits hsmooth.1 hsmooth.2

/-- The event at the head of the batch, of a client that has not ended its stream. -/
theorem Server.Sound.reads (hs : s.Sound) (hc : s.connections e.1 = some c)
    (hbatch : s.batch = e::rest) (hlisten : e.1 ≠ s.listenFd) (hend : e.2.epollrdhup = false)
    (hsmooth : Smooth s (.handle answers)) (ht : s.step (.handle answers) = some t) :
    ∃ calls, t = { s with batch := rest }.serve e.1 c calls ∧ ReadsOnce calls := by
  simp only [Server.step,hbatch] at ht
  obtain ⟨hfits,rfl⟩ := guarded_eq_some.mp ht
  unfold Answers.Fits at hfits
  rw [if_neg hlisten] at hfits
  have hfit := hfits c hc
  have hhangs : e.2.hangs = false := by
    simp [Events.hangs,hend,hs.smooth e (by rw [hbatch]; exact List.mem_cons_self)]
  refine ⟨handleClient e.2 answers.read answers.write,?_,
    handleClient_readsOnce hsmooth.1 hsmooth.2 hhangs ?_⟩
  · unfold Server.handleEvent
    simp only [if_neg hlisten,hc]
  · intro bytes hdata
    unfold Answers.Fit at hfit
    rw [hdata] at hfit
    exact hfit.2.1

theorem reachable_sound (hs : echo.ReachableUnder Smooth s) : s.Sound := by
  refine hs.invariant (I := Server.Sound) ?_ ?_
  · rintro s ⟨listenFd,rfl⟩
    exact ⟨by simp [Server.boot],by simp [Server.boot],by simp [Server.boot],List.nodup_nil,by simp [Server.boot]⟩
  · intro s a t _ hsound hsmooth ht
    exact hsound.step hsmooth ht

end Steps

/-- The connections that the server serves or has served. -/
def Server.Has (s : Server) (c : Connection) : Prop :=
  (∃ fd, s.connections fd = some c) ∨ c ∈ s.closed

section Results

variable {s : Server} {c : Connection}

theorem Server.Sound.connection (hs : s.Sound) (hc : s.Has c) : c.Sound := by
  rcases hc with ⟨fd,hc⟩ | hc
  · exact (hs.opened fd c hc).toSound
  · exact (hs.closed c hc).toSound

theorem Server.Sound.over (hs : s.Sound) (hc : s.Has c) (hclose : .close ∈ c.calls) : c.Over := by
  rcases hc with ⟨fd,hc⟩ | hc
  · exact absurd hclose (hs.opened fd c hc).noClose
  · exact hs.closed c hc

/-- Without socket errors the server reads the beginning of each stream, and writes back of each read
the first part that `write` has taken: all that it has read if every one is taken whole, and the
beginning of the stream as long as nothing is taken after one that is not. It closes a connection
only after the end of the stream, and then it has read everything if `read` has returned 0, or if
nothing was unread when the end was reported. Each event without `EPOLLRDHUP` makes one `read` of
up to `bufSize` bytes and offers all of it to one `write`. -/
theorem echoed_as_taken (hs : echo.ReachableUnder Smooth s) (hc : s.Has c) :
    c.received <+: c.arrived ∧ c.writes.map Offer.text = c.reads ∧
    (c.written = c.received ↔ ∀ o ∈ c.writes, o.Whole) ∧
    (Gapless c.writes → c.written <+: c.arrived) ∧
    (.close ∈ c.calls → c.fin = true ∧
      (.read .fin ∈ c.calls ∨ c.unread = [] → c.received = c.arrived ∧
        ((∀ o ∈ c.writes, o.Whole) → c.written = c.arrived))) ∧
    (∀ e rest answers t, s.batch = e::rest → s.connections e.1 = some c → e.1 ≠ s.listenFd →
      e.2.epollrdhup = false → Smooth s (.handle answers) → s.step (.handle answers) = some t →
        ∃ calls, t = { s with batch := rest }.serve e.1 c calls ∧ ReadsOnce calls) := by
  have hsound := reachable_sound hs
  obtain ⟨hreceived,hechoed⟩ := hsound.connection hc
  have hoffered : offered c.writes = c.received := by
    rw [offered_eq_flatten,hechoed]
    rfl
  have hwhole : c.written = c.received ↔ ∀ o ∈ c.writes, o.Whole := by
    rw [← hoffered]
    exact kept_eq_offered_iff
  refine ⟨hreceived,hechoed,hwhole,fun hgapless => ?_,fun hclose => ?_,?_⟩
  · have hbegins := hgapless.kept_prefix
    rw [hoffered] at hbegins
    exact hbegins.trans hreceived
  · have hover := hsound.over hc hclose
    refine ⟨hover.fin,fun hend => ?_⟩
    have hall : c.received = c.arrived := by
      rcases hend with hend | hnone
      · exact hover.all hend
      · exact received_all hreceived hnone
    exact ⟨hall,fun h => (hwhole.mpr h).trans hall⟩
  · intro e rest answers t hbatch hopen hlisten hend hsmooth ht
    exact hsound.reads hopen hbatch hlisten hend hsmooth ht

end Results

/-- The server accepts one client. -/
def oneClient : List Label :=
  [.wait [(3,{ epollin := true })],.handle { accepts := [⟨5,true,true⟩] }]

/-- The client sends a text, of which `write` takes `taken` bytes. -/
def echoText (text : String) (taken : ℕ) : List Label :=
  [.arrive 5 (ascii text),.wait [(5,{ epollin := true })],
    .handle { read := .data (ascii text), write := .count taken }]

/-- The client ends its stream, and the server is told so. -/
def ending : List Label :=
  [.finish 5,.wait [(5,{ epollin := true, epollrdhup := true })],.handle {}]

theorem echoed_as_taken_hi : ∃ s c, (echo.restrict Smooth).run
    (oneClient ++ echoText "hi" 2 ++ ending) (Server.boot 3) = some s ∧ c ∈ s.closed ∧
      c.arrived = ascii "hi" ∧ c.written = c.arrived := by
  have hrun : ((echo.restrict Smooth).run (oneClient ++ echoText "hi" 2 ++ ending)
      (Server.boot 3)).isSome = true := by decide
  obtain ⟨s,hs⟩ := Option.isSome_iff_exists.mp hrun
  have hend : ((echo.restrict Smooth).run (oneClient ++ echoText "hi" 2 ++ ending)
      (Server.boot 3)).map (fun s => s.closed.map (fun c => (c.arrived,decide (.close ∈ c.calls),
        decide (c.unread = []),decide (∀ o ∈ c.writes, o.Whole)))) =
      some [(ascii "hi",true,true,true)] := by decide
  rw [hs,Option.map_some,Option.some.injEq,List.map_eq_singleton_iff] at hend
  obtain ⟨c,hclosed,hc⟩ := hend
  simp only [Prod.mk.injEq,decide_eq_true_eq] at hc
  obtain ⟨harrived,hclose,hnone,hwhole⟩ := hc
  have hmem : c ∈ s.closed := by rw [hclosed]; exact List.mem_singleton_self c
  have hreach : echo.ReachableUnder Smooth s := .of_run (.init ⟨3,rfl⟩) hs
  have hresult := (echoed_as_taken hreach (Or.inr hmem)).2.2.2.2.1 hclose
  exact ⟨s,c,hs,hmem,harrived,(hresult.2 (Or.inr hnone)).2 hwhole⟩

/-- A byte that `write` has not taken is missing in what comes back; and the server reads nothing of
what arrives together with the end of the stream. -/
theorem echo_lossy :
    (¬ ∀ s c, echo.ReachableUnder Smooth s → s.Has c → c.written <+: c.arrived) ∧
    ¬ ∀ s c, echo.ReachableUnder Smooth s → s.Has c → .close ∈ c.calls →
      c.received = c.arrived ∧ c.written = c.arrived := by
  constructor
  · intro h
    have hend : ((echo.restrict Smooth).run (oneClient ++ echoText "ab" 1 ++ echoText "c" 1)
        (Server.boot 3)).map (fun s => (s.connections 5).map (fun c =>
          decide (c.written <+: c.arrived))) = some (some false) := by decide
    obtain ⟨s,hs,hopen⟩ := Option.map_eq_some_iff.mp hend
    obtain ⟨c,hc,hbegins⟩ := Option.map_eq_some_iff.mp hopen
    exact of_decide_eq_false hbegins (h s c (.of_run (.init ⟨3,rfl⟩) hs) (Or.inl ⟨5,hc⟩))
  · intro h
    have hend : ((echo.restrict Smooth).run (oneClient ++ [.arrive 5 (ascii "hi")] ++ ending)
        (Server.boot 3)).map (fun s => s.closed.map (fun c =>
          (decide (.close ∈ c.calls),decide (c.received = c.arrived)))) =
        some [(true,false)] := by decide
    obtain ⟨s,hs,hclosed⟩ := Option.map_eq_some_iff.mp hend
    obtain ⟨c,hc,hboth⟩ := List.map_eq_singleton_iff.mp hclosed
    obtain ⟨hclose,hreceived⟩ := Prod.mk.inj hboth
    have hmem : c ∈ s.closed := by rw [hc]; exact List.mem_singleton_self c
    have hall := h s c (.of_run (.init ⟨3,rfl⟩) hs) (Or.inr hmem) (of_decide_eq_true hclose)
    exact of_decide_eq_false hreceived hall.1

end NetLab.EpollServer
