import NetLab.Foundation.Lines
import NetLab.Foundation.Machine

/-! Line reassembly behind a buffer of bounded size. A chunk that would fill the buffer is
refused, together with what the buffer holds; any other is appended, and the complete lines are
handed over. What that means for the lines of the stream depends on the cuts alone. -/
namespace NetLab

/-- What has come in on a connection, the lines handed over with their positions in it, and how
many chunks have been refused. -/
structure InputLog where
  received : Bytes
  handed : List (ℕ × Bytes)
  refused : ℕ

/-- The position of a line that was taken from the buffer, which ends where `received` ends. -/
def linePosition (received : Bytes) (taken : Bytes × Bytes) : ℕ × Bytes :=
  (received.length-(taken.1.length+1+taken.2.length),taken.1)

def InputLog.empty : InputLog := ⟨[],[],0⟩

def InputLog.note (x : InputLog) (chunk : Bytes) (tooLong : Bool)
    (taken : List (Bytes × Bytes)) : InputLog :=
  let received := x.received ++ chunk
  ⟨received,x.handed ++ taken.map (linePosition received),
    if tooLong then x.refused+1 else x.refused⟩

/-- The stream has just begun, or its last byte has ended a line. -/
def AtLineStart (s : Bytes) : Prop := s = [] ∨ s.getLast? = some newline

instance (s : Bytes) : Decidable (AtLineStart s) := by
  unfold AtLineStart
  infer_instance

/-- A handed text is a complete line of the stream: it starts at the beginning of the stream or
directly after a newline, and ends directly before the next one. -/
def WholeLine (stream : Bytes) (p : ℕ × Bytes) : Prop :=
  ∃ pre post, stream = pre ++ (p.2 ++ newline::post) ∧ pre.length = p.1 ∧ newline ∉ p.2 ∧
    AtLineStart pre

/-- The log of a connection together with its buffer. -/
structure Intake where
  log : InputLog
  buffer : Bytes

namespace Intake

def empty : Intake := ⟨.empty,[]⟩

def feed (cap : ℕ) (x : Intake) (chunk : Bytes) : Intake :=
  if cap ≤ x.buffer.length+chunk.length then ⟨x.log.note chunk true [],[]⟩
  else
    ⟨x.log.note chunk false (linesTaken (x.buffer ++ chunk)),unfinished (x.buffer ++ chunk)⟩

def feeds (cap : ℕ) (chunks : List Bytes) : Intake := chunks.foldl (feed cap) empty

theorem feeds_concat (cap : ℕ) (chunks : List Bytes) (chunk : Bytes) :
    feeds cap (chunks ++ [chunk]) = (feeds cap chunks).feed cap chunk := by
  rw [feeds,feeds,List.foldl_append]
  rfl

/-- A chunk is received whether it is refused or not. -/
theorem feed_received (cap : ℕ) (x : Intake) (chunk : Bytes) :
    (x.feed cap chunk).log.received = x.log.received ++ chunk := by
  unfold feed
  split <;> rfl

theorem feeds_received (cap : ℕ) (chunks : List Bytes) :
    (feeds cap chunks).log.received = chunks.flatten := by
  induction chunks using List.reverseRecOn with
  | nil => rfl
  | append_singleton chunks chunk ih =>
    rw [feeds_concat,feed_received,ih,List.flatten_append,List.flatten_singleton]

/-- The received stream is what came before the buffer and the buffer, which holds no newline. -/
structure Sound (x : Intake) (pre : Bytes) : Prop where
  received : x.log.received = pre ++ x.buffer
  plain : newline ∉ x.buffer

theorem Sound.empty : Sound empty [] := ⟨rfl,List.not_mem_nil⟩

/-- What the buffer has handed over of `x.buffer ++ chunk`. -/
def linesDone (buffer : Bytes) : Bytes :=
  (completeLines buffer).flatMap (fun line => line ++ [newline])

theorem Sound.feed {x : Intake} {pre : Bytes} (h : x.Sound pre) (cap : ℕ) (chunk : Bytes) :
    (x.feed cap chunk).Sound (if cap ≤ x.buffer.length+chunk.length then x.log.received ++ chunk
      else pre ++ linesDone (x.buffer ++ chunk)) := by
  unfold Intake.feed
  split_ifs
  · exact ⟨(List.append_nil _).symm,List.not_mem_nil⟩
  · refine ⟨?_,newline_not_mem_unfinished _⟩
    change x.log.received ++ chunk = _
    rw [h.received,List.append_assoc,List.append_assoc]
    exact congrArg _ (flatMap_completeLines _).symm

/-- Handed texts lie where the log says, with their newlines. -/
def Located (stream : Bytes) (p : ℕ × Bytes) : Prop :=
  ∃ pre post, stream = pre ++ (p.2 ++ newline::post) ∧ pre.length = p.1 ∧ newline ∉ p.2

theorem Located.append {stream : Bytes} {p : ℕ × Bytes} (h : Located stream p) (more : Bytes) :
    Located (stream ++ more) p := by
  obtain ⟨pre,post,rfl,hlen,hplain⟩ := h
  exact ⟨pre,post ++ more,by simp,hlen,hplain⟩

theorem Located.whole_iff {stream : Bytes} {p : ℕ × Bytes} (h : Located stream p) :
    WholeLine stream p ↔ AtLineStart (stream.take p.1) := by
  obtain ⟨pre,post,rfl,hlen,hplain⟩ := h
  constructor
  · rintro ⟨pre',post',heq,hlen',-,hstart⟩
    rw [heq,List.take_left' hlen']
    exact hstart
  · intro hstart
    rw [List.take_left' hlen] at hstart
    exact ⟨pre,post,rfl,hlen,hplain,hstart⟩

/-- More bytes do not change whether a handed text is a whole line. -/
theorem Located.whole_append {stream : Bytes} {p : ℕ × Bytes} (h : Located stream p)
    (more : Bytes) : WholeLine (stream ++ more) p ↔ WholeLine stream p := by
  rw [h.whole_iff,(h.append more).whole_iff]
  obtain ⟨pre,post,rfl,hlen,-⟩ := h
  rw [List.take_append_of_le_length (by simp [hlen])]

/-- The lines taken from the end of a stream are located in it; all but the first are whole, and
the first is whole if the buffer starts at the beginning of a line. -/
theorem linesTaken_located (buffer : Bytes) : ∀ pre : Bytes, ∀ taken ∈ linesTaken buffer,
    Located (pre ++ buffer) (linePosition (pre ++ buffer) taken) ∧
      (AtLineStart pre → WholeLine (pre ++ buffer) (linePosition (pre ++ buffer) taken)) := by
  induction buffer using lines_induction with
  | plain s h => simp [linesTaken_plain h]
  | line line rest h ih =>
    intro pre taken htaken
    rw [linesTaken_line h] at htaken
    rcases List.mem_cons.mp htaken with rfl | hmem
    · have hpos : linePosition (pre ++ (line ++ newline::rest)) (line,rest) = (pre.length,line) := by
        simp only [linePosition,List.length_append,List.length_cons,Prod.mk.injEq,and_true]
        omega
      rw [hpos]
      exact ⟨⟨pre,rest,rfl,rfl,h⟩,fun hstart => ⟨pre,rest,rfl,rfl,h,hstart⟩⟩
    · have hnext : AtLineStart (pre ++ (line ++ [newline])) := Or.inr (by simp)
      have heq : pre ++ (line ++ newline::rest) = pre ++ (line ++ [newline]) ++ rest := by simp
      obtain ⟨hloc,hwhole⟩ := ih (pre ++ (line ++ [newline])) taken hmem
      rw [heq]
      exact ⟨hloc,fun _ => hwhole hnext⟩

/-- The first line taken starts where the buffer starts. -/
theorem linesTaken_first {buffer : Bytes} {pre : Bytes} {taken : Bytes × Bytes}
    (h : (linesTaken buffer).head? = some taken) :
    (linePosition (pre ++ buffer) taken).1 = pre.length := by
  rcases plain_or_line buffer with hplain | ⟨line,rest,hline,rfl⟩
  · simp [linesTaken_plain hplain] at h
  · rw [linesTaken_line hline,List.head?_cons] at h
    obtain rfl := Option.some.inj h
    simp only [linePosition,List.length_append,List.length_cons]
    omega

theorem linesTaken_eq_nil_iff {buffer : Bytes} : linesTaken buffer = [] ↔ newline ∉ buffer := by
  rcases plain_or_line buffer with hplain | ⟨line,rest,hline,rfl⟩
  · simp [linesTaken_plain hplain,hplain]
  · simp [linesTaken_line hline]

end Intake

/-- How many bytes are in the buffer, and whether they start at the beginning of a line. -/
structure Cursor where
  buffered : ℕ
  atStart : Bool

namespace Cursor

def start : Cursor := ⟨0,true⟩

def next (cap : ℕ) (k : Cursor) (chunk : Bytes) : Cursor :=
  if cap ≤ k.buffered+chunk.length then ⟨0,decide (chunk.getLast? = some newline)⟩
  else if newline ∈ chunk then ⟨(unfinished chunk).length,true⟩
  else ⟨k.buffered+chunk.length,k.atStart⟩

/-- The chunk is accepted and completes a line whose beginning has been refused. -/
def Misreads (cap : ℕ) (k : Cursor) (chunk : Bytes) : Prop :=
  k.buffered+chunk.length < cap ∧ newline ∈ chunk ∧ k.atStart = false

instance (cap : ℕ) (k : Cursor) (chunk : Bytes) : Decidable (k.Misreads cap chunk) := by
  unfold Misreads
  infer_instance

end Cursor

/-- No chunk completes a line whose beginning has been refused. -/
def InStep (cap : ℕ) : Cursor → List Bytes → Prop
  | _,[] => True
  | k,chunk::chunks => ¬ k.Misreads cap chunk ∧ InStep cap (k.next cap chunk) chunks

instance decidableInStep (cap : ℕ) : ∀ (k : Cursor) (chunks : List Bytes),
    Decidable (InStep cap k chunks)
  | _,[] => isTrue trivial
  | k,chunk::chunks =>
    have := decidableInStep cap (k.next cap chunk) chunks
    inferInstanceAs (Decidable (¬ k.Misreads cap chunk ∧ InStep cap (k.next cap chunk) chunks))

theorem inStep_concat {cap : ℕ} {k : Cursor} {chunks : List Bytes} {chunk : Bytes} :
    InStep cap k (chunks ++ [chunk]) ↔
      InStep cap k chunks ∧ ¬ (chunks.foldl (Cursor.next cap) k).Misreads cap chunk := by
  induction chunks generalizing k with
  | nil => simp [InStep]
  | cons c chunks ih =>
    rw [List.cons_append,InStep,InStep,ih,List.foldl_cons,and_assoc]

namespace Intake

/-- The cursor says where the buffer stands in the stream. -/
def Tracks (x : Intake) (k : Cursor) : Prop :=
  ∃ pre, x.Sound pre ∧ k = ⟨x.buffer.length,decide (AtLineStart pre)⟩

theorem atLineStart_append {pre s : Bytes} (hs : s ≠ []) :
    AtLineStart (pre ++ s) ↔ s.getLast? = some newline := by
  have hlast : (pre ++ s).getLast? = s.getLast? := by
    rw [List.getLast?_append_of_ne_nil _ hs]
  simp [AtLineStart,hlast,hs]

theorem linesDone_plain {s : Bytes} (h : newline ∉ s) : linesDone s = [] := by
  rw [linesDone,completeLines_plain h]
  rfl

theorem linesDone_getLast {s : Bytes} (h : newline ∈ s) :
    (linesDone s).getLast? = some newline := by
  induction s using lines_induction with
  | plain s hs => exact absurd h hs
  | line line rest hline ih =>
    rw [linesDone,completeLines_line hline,List.flatMap_cons]
    rcases plain_or_line rest with hplain | ⟨next,more,hnext,rfl⟩
    · simp [completeLines_plain hplain]
    · have hmem : newline ∈ next ++ newline::more := by simp
      have hlast := ih hmem
      rw [linesDone] at hlast
      rw [List.getLast?_append,hlast]
      rfl

/-- A chunk with a newline ends the line that the buffer has begun. -/
theorem unfinished_append_newline (buffer : Bytes) {chunk : Bytes} (h : newline ∈ chunk)
    (hbuffer : newline ∉ buffer) : unfinished (buffer ++ chunk) = unfinished chunk := by
  rcases plain_or_line chunk with hplain | ⟨line,rest,hline,rfl⟩
  · exact absurd h hplain
  · have hall : newline ∉ buffer ++ line := by simp [hbuffer,hline]
    rw [← List.append_assoc,unfinished_line hall,unfinished_line hline]

theorem Tracks.feed {x : Intake} {k : Cursor} (h : x.Tracks k) (cap : ℕ) {chunk : Bytes}
    (hne : chunk ≠ []) : (x.feed cap chunk).Tracks (k.next cap chunk) := by
  obtain ⟨pre,hx,rfl⟩ := h
  refine ⟨_,hx.feed cap chunk,?_⟩
  simp only [Cursor.next,Intake.feed]
  by_cases hlong : cap ≤ x.buffer.length+chunk.length
  · simp [hlong,atLineStart_append hne]
  · simp only [if_neg hlong]
    by_cases hmem : newline ∈ chunk
    · have hall : newline ∈ x.buffer ++ chunk := List.mem_append_right _ hmem
      have hlast := linesDone_getLast hall
      have hdone : linesDone (x.buffer ++ chunk) ≠ [] := by
        intro hnil
        rw [hnil] at hlast
        contradiction
      simp [hmem,atLineStart_append hdone,hlast,unfinished_append_newline _ hmem hx.plain]
    · have hall : newline ∉ x.buffer ++ chunk := by simp [hx.plain,hmem]
      simp [hmem,linesDone_plain hall,unfinished_plain hall]

theorem feeds_tracks (cap : ℕ) {chunks : List Bytes} (hne : ∀ chunk ∈ chunks, chunk ≠ []) :
    (feeds cap chunks).Tracks (chunks.foldl (Cursor.next cap) Cursor.start) := by
  induction chunks using List.reverseRecOn with
  | nil => exact ⟨[],Sound.empty,by simp [feeds,empty,Cursor.start,AtLineStart]⟩
  | append_singleton chunks chunk ih =>
    rw [feeds_concat,List.foldl_append]
    exact (ih (fun c hc => hne c (List.mem_append_left _ hc))).feed cap (hne chunk (by simp))

/-- What a chunk adds to the log: the first line is whole exactly when the buffer starts at the
beginning of a line, and the later ones always. A connection that is closed meanwhile gets the
first lines only. -/
theorem note_whole_iff {x : Intake} {pre chunk : Bytes} {taken : List (Bytes × Bytes)}
    (hx : x.Sound pre) (hloc : ∀ p ∈ x.log.handed, Located x.log.received p) (tooLong : Bool)
    (hpre : taken <+: linesTaken (x.buffer ++ chunk))
    (hhead : taken.head? = (linesTaken (x.buffer ++ chunk)).head?) :
    (∀ p ∈ (x.log.note chunk tooLong taken).handed,
      Located (x.log.note chunk tooLong taken).received p) ∧
    ((∀ p ∈ (x.log.note chunk tooLong taken).handed,
      WholeLine (x.log.note chunk tooLong taken).received p) ↔
      (∀ p ∈ x.log.handed, WholeLine x.log.received p) ∧ (newline ∈ chunk → AtLineStart pre)) := by
  have hreceived : x.log.received ++ chunk = pre ++ (x.buffer ++ chunk) := by
    rw [hx.received,List.append_assoc]
  have hnew : ∀ t ∈ taken, Located (x.log.received ++ chunk)
      (linePosition (x.log.received ++ chunk) t) ∧ (AtLineStart pre →
        WholeLine (x.log.received ++ chunk) (linePosition (x.log.received ++ chunk) t)) := by
    intro t ht
    rw [hreceived]
    exact linesTaken_located _ _ t (hpre.subset ht)
  have hall : (x.log.note chunk tooLong taken).received = x.log.received ++ chunk := rfl
  have hhanded : (x.log.note chunk tooLong taken).handed =
      x.log.handed ++ taken.map (linePosition (x.log.received ++ chunk)) := rfl
  rw [hall,hhanded]
  constructor
  · intro p hp
    rcases List.mem_append.mp hp with hp | hp
    · exact (hloc p hp).append chunk
    · obtain ⟨t,ht,rfl⟩ := List.mem_map.mp hp
      exact (hnew t ht).1
  · constructor
    · intro hwhole
      refine ⟨fun p hp => ?_,fun hmem => ?_⟩
      · exact ((hloc p hp).whole_append chunk).mp (hwhole p (List.mem_append_left _ hp))
      · -- the first line of the buffer has been handed over, so it is whole
        have hsome : (linesTaken (x.buffer ++ chunk)).head?.isSome = true := by
          rw [List.isSome_head?,Ne,linesTaken_eq_nil_iff,not_not]
          exact List.mem_append_right _ hmem
        obtain ⟨t,ht⟩ := Option.isSome_iff_exists.mp hsome
        have htaken : t ∈ taken := List.mem_of_head? (hhead.trans ht)
        have hstart := ((hnew t htaken).1.whole_iff).mp
          (hwhole _ (List.mem_append_right _ (List.mem_map_of_mem htaken)))
        rw [hreceived,linesTaken_first ht,List.take_left] at hstart
        exact hstart
    · rintro ⟨hold,hstart⟩ p hp
      rcases List.mem_append.mp hp with hp | hp
      · exact ((hloc p hp).whole_append chunk).mpr (hold p hp)
      · obtain ⟨t,ht,rfl⟩ := List.mem_map.mp hp
        refine (hnew t ht).2 (hstart ?_)
        by_contra hmem
        have hplain : newline ∉ x.buffer ++ chunk := by simp [hx.plain,hmem]
        have hmemt := hpre.subset ht
        rw [linesTaken_plain hplain] at hmemt
        contradiction

/-- The lines that a sequence of chunks hands over are located in the stream, and all of them are
whole exactly when no chunk completes a line whose beginning has been refused. -/
theorem feeds_whole_iff (cap : ℕ) {chunks : List Bytes} (hne : ∀ chunk ∈ chunks, chunk ≠ []) :
    (∀ p ∈ (feeds cap chunks).log.handed, Located (feeds cap chunks).log.received p) ∧
    ((∀ p ∈ (feeds cap chunks).log.handed, WholeLine (feeds cap chunks).log.received p) ↔
      InStep cap Cursor.start chunks) := by
  induction chunks using List.reverseRecOn with
  | nil => simp [feeds,empty,InputLog.empty,InStep]
  | append_singleton chunks chunk ih =>
    have hne' : ∀ c ∈ chunks, c ≠ [] := fun c hc => hne c (List.mem_append_left _ hc)
    obtain ⟨hloc,hiff⟩ := ih hne'
    obtain ⟨pre,hx,hcursor⟩ := feeds_tracks cap hne'
    rw [feeds_concat,inStep_concat,← hiff,hcursor]
    unfold feed Cursor.Misreads
    by_cases hlong : cap ≤ (feeds cap chunks).buffer.length+chunk.length
    · have hnot : ¬ (feeds cap chunks).buffer.length+chunk.length < cap := by omega
      simp only [if_pos hlong,hnot,false_and,not_false_eq_true,and_true]
      have hhanded : ((feeds cap chunks).log.note chunk true []).handed =
          (feeds cap chunks).log.handed := List.append_nil _
      rw [hhanded]
      refine ⟨fun p hp => (hloc p hp).append chunk,?_⟩
      exact forall₂_congr (fun p hp => (hloc p hp).whole_append chunk)
    · have hfits : (feeds cap chunks).buffer.length+chunk.length < cap := by omega
      obtain ⟨hloc',hiff'⟩ := @note_whole_iff _ _ chunk _ hx hloc false List.prefix_rfl rfl
      simp only [if_neg hlong]
      refine ⟨hloc',hiff'.trans (and_congr_right fun _ => ?_)⟩
      simp only [hfits,true_and,not_and,decide_eq_false_iff_not,not_not]

/-- Lines and an unfinished rest that leave room for a chunk are reassembled exactly: nothing is
refused, the lines handed over are the lines of the stream, and the buffer is its rest. -/
theorem feeds_reassembles {cap maxLine maxChunk : ℕ} (hcap : maxLine+maxChunk < cap)
    {chunks : List Bytes} (hchunks : ∀ chunk ∈ chunks, chunk.length ≤ maxChunk)
    (hlines : ∀ line ∈ completeLines chunks.flatten, line.length ≤ maxLine)
    (hrest : (unfinished chunks.flatten).length ≤ maxLine) :
    (feeds cap chunks).log.handed.map Prod.snd = completeLines chunks.flatten ∧
      (feeds cap chunks).buffer = unfinished chunks.flatten ∧
      (feeds cap chunks).log.refused = 0 := by
  induction chunks using List.reverseRecOn with
  | nil => exact ⟨rfl,rfl,rfl⟩
  | append_singleton chunks chunk ih =>
    rw [List.flatten_append,List.flatten_singleton] at hlines hrest ⊢
    have hshort := unfinished_length_le hlines hrest
    have hchunk := hchunks chunk (by simp)
    obtain ⟨hhanded,hbuffer,hrefused⟩ := ih (fun c hc => hchunks c (List.mem_append_left _ hc))
      (fun line hline => hlines line (by
        rw [completeLines_append]
        exact List.mem_append_left _ hline)) hshort
    have hfits : ¬ cap ≤ (feeds cap chunks).buffer.length+chunk.length := by
      rw [hbuffer]
      omega
    rw [feeds_concat,feed,if_neg hfits,hbuffer,completeLines_append chunks.flatten chunk,
      unfinished_append chunks.flatten chunk]
    refine ⟨?_,rfl,hrefused⟩
    simp only [InputLog.note,List.map_append,hhanded,List.map_map]
    exact congrArg _ (linesTaken_fst _)

end Intake

/-- A connection in the course of a run: not yet there, open with a buffer, or gone. -/
inductive Status
  | pending
  | opened (buffer : Bytes)
  | closed
  deriving DecidableEq

/-- Without any data a connection stays as it is, is opened with an empty buffer, or is closed. -/
def Status.Passes (x y : Status) : Prop := y = x ∨ y = .closed ∨ (x = .pending ∧ y = .opened [])

theorem Status.Passes.trans {x y z : Status} (h : x.Passes y) (h' : y.Passes z) : x.Passes z := by
  rcases h with rfl | rfl | ⟨rfl,rfl⟩
  · exact h'
  · rcases h' with rfl | rfl | ⟨hno,-⟩
    · exact Or.inr (Or.inl rfl)
    · exact Or.inr (Or.inl rfl)
    · exact Status.noConfusion hno
  · rcases h' with rfl | rfl | ⟨hno,-⟩
    · exact Or.inr (Or.inr ⟨rfl,rfl⟩)
    · exact Or.inr (Or.inl rfl)
    · exact Status.noConfusion hno

/-- One connection of a machine seen from outside: how it stands in a state, the chunk that a
label delivers to it, whether that chunk is refused, and the lines taken from the buffer. -/
structure Tap (σ ι : Type*) where
  status : σ → Status
  chunk : σ → ι → Option Bytes
  tooLong : σ → ι → Bool
  taken : σ → ι → List (Bytes × Bytes)

namespace Tap

variable {σ ι : Type*} {M : Machine σ ι} {tap : Tap σ ι} {cap maxChunk : ℕ}

def note (tap : Tap σ ι) (s : σ) (a : ι) (x : InputLog) : InputLog :=
  match tap.chunk s a with
  | none => x
  | some bytes => x.note bytes (tap.tooLong s a) (tap.taken s a)

/-- What has come in on the connection in a run, and the lines handed over. -/
def log (tap : Tap σ ι) (M : Machine σ ι) (as : List ι) (s : σ) : InputLog :=
  M.observe tap.note as s .empty

/-- The chunks that a run delivers to the connection. -/
def chunks (tap : Tap σ ι) (M : Machine σ ι) (as : List ι) (s : σ) : List Bytes :=
  M.observe (fun s a cs => cs ++ (tap.chunk s a).toList) as s []

/-- The lines of an accepted chunk are taken as far as the connection stays open, the first one
in any case. -/
structure Accepts (buffer bytes : Bytes) (taken : List (Bytes × Bytes)) (next : Status) : Prop where
  initial : taken <+: linesTaken (buffer ++ bytes)
  first : taken.head? = (linesTaken (buffer ++ bytes)).head?
  next : next = .closed ∨
    (taken = linesTaken (buffer ++ bytes) ∧ next = .opened (unfinished (buffer ++ bytes)))

/-- The connection is read through a buffer of `cap` bytes in chunks of at most `maxChunk`. -/
structure Lawful (tap : Tap σ ι) (M : Machine σ ι) (cap maxChunk : ℕ) : Prop where
  init : ∀ s, M.init s → tap.status s = .pending
  silent : ∀ s a t, M.Reachable s → M.step s a = some t → tap.chunk s a = none →
    (tap.status s).Passes (tap.status t)
  size : ∀ s a t bytes, M.Reachable s → M.step s a = some t → tap.chunk s a = some bytes →
    bytes ≠ [] ∧ bytes.length ≤ maxChunk
  data : ∀ s a t bytes, M.Reachable s → M.step s a = some t → tap.chunk s a = some bytes →
    ∃ buffer, tap.status s = .opened buffer ∧
      tap.tooLong s a = decide (cap ≤ buffer.length+bytes.length) ∧
      (cap ≤ buffer.length+bytes.length → tap.taken s a = [] ∧ tap.status t = .opened []) ∧
      (¬ cap ≤ buffer.length+bytes.length → Accepts buffer bytes (tap.taken s a) (tap.status t))

/-- The log of a connection that was closed while its last chunk was handled. -/
structure CutShort (cap : ℕ) (chunks : List Bytes) (x : InputLog) (before : List Bytes)
    (last : Bytes) (taken : List (Bytes × Bytes)) : Prop where
  chunks : chunks = before ++ [last]
  fits : ¬ cap ≤ (Intake.feeds cap before).buffer.length+last.length
  log : x = (Intake.feeds cap before).log.note last false taken
  initial : taken <+: linesTaken ((Intake.feeds cap before).buffer ++ last)
  first : taken.head? = (linesTaken ((Intake.feeds cap before).buffer ++ last)).head?

/-- The log of a connection is that of its chunks. -/
def Matches (cap : ℕ) (chunks : List Bytes) (x : InputLog) : Status → Prop
  | .pending => chunks = [] ∧ x = .empty
  | .opened buffer => Intake.feeds cap chunks = ⟨x,buffer⟩
  | .closed => (Intake.feeds cap chunks).log = x ∨
    ∃ before last taken, CutShort cap chunks x before last taken

theorem Matches.pass {chunks : List Bytes} {x : InputLog} {y z : Status}
    (h : Matches cap chunks x y) (hpass : y.Passes z) : Matches cap chunks x z := by
  rcases hpass with rfl | rfl | ⟨rfl,rfl⟩
  · exact h
  · cases y with
    | pending =>
      obtain ⟨rfl,rfl⟩ := h
      exact Or.inl rfl
    | opened buffer => exact Or.inl (congrArg Intake.log h)
    | closed => exact h
  · obtain ⟨rfl,rfl⟩ := h
    rfl

/-- One label keeps the log of the connection that of its chunks. -/
theorem Lawful.step (h : tap.Lawful M cap maxChunk) {s t : σ} {a : ι} (hs : M.Reachable s)
    (ht : M.step s a = some t) {chunks : List Bytes} {x : InputLog}
    (hx : Matches cap chunks x (tap.status s)) :
    Matches cap (chunks ++ (tap.chunk s a).toList) (tap.note s a x) (tap.status t) := by
  unfold note
  cases hc : tap.chunk s a with
  | none =>
    rw [Option.toList_none,List.append_nil]
    exact hx.pass (h.silent s a t hs ht hc)
  | some bytes =>
    obtain ⟨buffer,hopen,hlong,hrefused,haccepted⟩ := h.data s a t bytes hs ht hc
    rw [hopen] at hx
    have hlog : (Intake.feeds cap chunks).log = x := congrArg Intake.log hx
    have hbuffer : (Intake.feeds cap chunks).buffer = buffer := congrArg Intake.buffer hx
    rw [Option.toList_some,hlong]
    by_cases hcap : cap ≤ buffer.length+bytes.length
    · obtain ⟨htaken,hnext⟩ := hrefused hcap
      rw [hnext,htaken,decide_eq_true hcap]
      change Intake.feeds cap (chunks ++ [bytes]) = _
      rw [Intake.feeds_concat,Intake.feed,hlog,hbuffer,if_pos hcap]
    · obtain ⟨hinitial,hfirst,hnext⟩ := haccepted hcap
      rw [decide_eq_false hcap]
      rcases hnext with hnext | ⟨htaken,hnext⟩
      · rw [hnext]
        refine Or.inr ⟨chunks,bytes,tap.taken s a,rfl,?_,?_,?_,?_⟩
        · rwa [hbuffer]
        · rw [hlog]
        · rwa [hbuffer]
        · rwa [hbuffer]
      · rw [hnext,htaken]
        change Intake.feeds cap (chunks ++ [bytes]) = _
        rw [Intake.feeds_concat,Intake.feed,hlog,hbuffer,if_neg hcap]

/-- In any run the log of the connection is that of its chunks. -/
theorem Lawful.run (h : tap.Lawful M cap maxChunk) {s t : σ} {as : List ι} (hs : M.init s)
    (hrun : M.run as s = some t) :
    Matches cap (tap.chunks M as s) (tap.log M as s) (tap.status t) ∧
      ∀ chunk ∈ tap.chunks M as s, chunk ≠ [] ∧ chunk.length ≤ maxChunk := by
  -- both observations at once
  let f : σ → ι → List Bytes × InputLog → List Bytes × InputLog :=
    fun s a p => (p.1 ++ (tap.chunk s a).toList,tap.note s a p.2)
  have hsplit : ∀ as s p, M.observe f as s p =
      (M.observe (fun s a cs => cs ++ (tap.chunk s a).toList) as s p.1,
        M.observe tap.note as s p.2) := by
    intro as
    induction as with
    | nil => exact fun _ _ => rfl
    | cons a as ih =>
      intro s p
      simp only [Machine.observe]
      cases M.step s a with
      | none => rfl
      | some t => exact ih t (f s a p)
  have hpair := Machine.observe_invariant (M := M) (f := f)
    (I := fun s p => Matches cap p.1 p.2 (tap.status s) ∧
      ∀ chunk ∈ p.1, chunk ≠ [] ∧ chunk.length ≤ maxChunk)
    (fun s a t p hr ht hp => ⟨h.step hr ht hp.1,fun chunk hmem => by
      rcases List.mem_append.mp hmem with hmem | hmem
      · exact hp.2 chunk hmem
      · exact h.size s a t chunk hr ht (by simpa using hmem)⟩)
    (.init hs) (x := ([],.empty)) ⟨by rw [h.init s hs]; exact ⟨rfl,rfl⟩,by simp⟩ hrun
  rw [hsplit] at hpair
  exact hpair

/-- Every line of at most `maxLine` bytes is handed over as it was sent, whatever the cuts: in
every run after which the connection is open, with lines and rest of at most that size, the lines
handed over are those of the stream, the buffer holds the rest, and no chunk has been refused. -/
def Reassembles (tap : Tap σ ι) (M : Machine σ ι) (maxLine : ℕ) : Prop :=
  ∀ s as t buffer, M.init s → M.run as s = some t → tap.status t = .opened buffer →
    (∀ line ∈ completeLines (tap.log M as s).received, line.length ≤ maxLine) →
    (unfinished (tap.log M as s).received).length ≤ maxLine →
    (tap.log M as s).handed.map Prod.snd = completeLines (tap.log M as s).received ∧
      buffer = unfinished (tap.log M as s).received ∧ (tap.log M as s).refused = 0

theorem Lawful.reassembles (h : tap.Lawful M cap maxChunk) {maxLine : ℕ}
    (hcap : maxLine+maxChunk < cap) : tap.Reassembles M maxLine := by
  intro s as t buffer hs hrun hopen hlines hrest
  obtain ⟨hmatch,hsize⟩ := h.run hs hrun
  rw [hopen] at hmatch
  have hlog : (Intake.feeds cap (tap.chunks M as s)).log = tap.log M as s :=
    congrArg Intake.log hmatch
  have hbuffer : (Intake.feeds cap (tap.chunks M as s)).buffer = buffer :=
    congrArg Intake.buffer hmatch
  rw [← hlog,Intake.feeds_received] at hlines hrest ⊢
  obtain ⟨hhanded,hend,hrefused⟩ :=
    Intake.feeds_reassembles hcap (fun c hc => (hsize c hc).2) hlines hrest
  exact ⟨hhanded,hbuffer.symm.trans hend,hrefused⟩

/-- In a run from `s`, all texts handed over are whole lines of the stream. -/
def HandsWholeLines (tap : Tap σ ι) (M : Machine σ ι) (as : List ι) (s : σ) : Prop :=
  ∀ p ∈ (tap.log M as s).handed, WholeLine (tap.log M as s).received p

/-- In a run all texts handed over are whole lines exactly when no chunk completes a line whose
beginning has been refused. -/
theorem Lawful.whole_iff (h : tap.Lawful M cap maxChunk) {s t : σ} {as : List ι} (hs : M.init s)
    (hrun : M.run as s = some t) :
    tap.HandsWholeLines M as s ↔ InStep cap Cursor.start (tap.chunks M as s) := by
  obtain ⟨hmatch,hsize⟩ := h.run hs hrun
  have hne : ∀ chunk ∈ tap.chunks M as s, chunk ≠ [] := fun c hc => (hsize c hc).1
  have hfeeds := (Intake.feeds_whole_iff cap hne).2
  unfold HandsWholeLines
  cases hstatus : tap.status t with
  | pending =>
    rw [hstatus] at hmatch
    rw [hmatch.1,hmatch.2]
    simp [InputLog.empty,InStep]
  | opened buffer =>
    rw [hstatus] at hmatch
    rw [← hfeeds,show (Intake.feeds cap (tap.chunks M as s)).log = tap.log M as s from
      congrArg Intake.log hmatch]
  | closed =>
    rw [hstatus] at hmatch
    rcases hmatch with hlog | ⟨before,last,taken,hcut⟩
    · rw [← hfeeds,hlog]
    · have hbefore : ∀ chunk ∈ before, chunk ≠ [] := by
        intro c hc
        refine hne c ?_
        rw [hcut.chunks]
        exact List.mem_append_left _ hc
      obtain ⟨hloc,hiff⟩ := Intake.feeds_whole_iff cap hbefore
      obtain ⟨pre,hx,hcursor⟩ := Intake.feeds_tracks cap hbefore
      have hfits : (Intake.feeds cap before).buffer.length+last.length < cap := by
        have := hcut.fits
        omega
      rw [hcut.log,hcut.chunks,inStep_concat,← hiff,hcursor,
        (Intake.note_whole_iff hx hloc false hcut.initial hcut.first).2]
      refine and_congr_right fun _ => ?_
      simp only [Cursor.Misreads,hfits,true_and,not_and,decide_eq_false_iff_not,not_not]

end Tap

end NetLab
