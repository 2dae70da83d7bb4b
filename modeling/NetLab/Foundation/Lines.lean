import NetLab.Foundation.Text

/-! A byte stream as lines: the complete lines and the unfinished rest, and the loop of a reader
that takes one line after the other from its buffer. -/
namespace NetLab

/-- The complete lines of a stream, without their newlines, and the unfinished rest. -/
def splitLines : Bytes → List Bytes × Bytes
  | [] => ([],[])
  | c::s =>
    let r := splitLines s
    if c = newline then ([]::r.1,r.2)
    else
      match r.1 with
      | [] => ([],c::r.2)
      | line::lines => ((c::line)::lines,r.2)

def completeLines (s : Bytes) : List Bytes := (splitLines s).1

def unfinished (s : Bytes) : Bytes := (splitLines s).2

section Split

theorem splitLines_cons_of_ne {c : UInt8} (h : c ≠ newline) (s : Bytes) :
    splitLines (c::s) = match (splitLines s).1 with
      | [] => ([],c::(splitLines s).2)
      | line::lines => ((c::line)::lines,(splitLines s).2) := by
  rw [splitLines]
  exact if_neg h

theorem splitLines_newline (s : Bytes) :
    splitLines (newline::s) = ([]::completeLines s,unfinished s) := rfl

/-- A text without a newline is unfinished as a whole. -/
theorem splitLines_plain {s : Bytes} (h : newline ∉ s) : splitLines s = ([],s) := by
  induction s with
  | nil => rfl
  | cons c s ih =>
    rw [List.mem_cons,not_or] at h
    rw [splitLines_cons_of_ne (Ne.symm h.1),ih h.2]

/-- The first line of a stream and the rest of it. -/
theorem splitLines_line {line : Bytes} (h : newline ∉ line) (s : Bytes) :
    splitLines (line ++ newline::s) = (line::completeLines s,unfinished s) := by
  induction line with
  | nil => exact splitLines_newline s
  | cons c line ih =>
    rw [List.mem_cons,not_or] at h
    rw [List.cons_append,splitLines_cons_of_ne (Ne.symm h.1),ih h.2]

@[simp] theorem completeLines_nil : completeLines [] = [] := rfl

@[simp] theorem unfinished_nil : unfinished [] = [] := rfl

theorem completeLines_plain {s : Bytes} (h : newline ∉ s) : completeLines s = [] :=
  congrArg Prod.fst (splitLines_plain h)

theorem unfinished_plain {s : Bytes} (h : newline ∉ s) : unfinished s = s :=
  congrArg Prod.snd (splitLines_plain h)

theorem completeLines_line {line : Bytes} (h : newline ∉ line) (s : Bytes) :
    completeLines (line ++ newline::s) = line::completeLines s :=
  congrArg Prod.fst (splitLines_line h s)

theorem unfinished_line {line : Bytes} (h : newline ∉ line) (s : Bytes) :
    unfinished (line ++ newline::s) = unfinished s := by
  rw [unfinished,splitLines_line h]

/-- A stream either holds no newline or begins with a line. -/
theorem plain_or_line (s : Bytes) :
    newline ∉ s ∨ ∃ line rest, newline ∉ line ∧ s = line ++ newline::rest := by
  induction s with
  | nil => exact Or.inl List.not_mem_nil
  | cons c s ih =>
    by_cases hc : c = newline
    · exact Or.inr ⟨[],s,List.not_mem_nil,by rw [hc]; rfl⟩
    · rcases ih with hs | ⟨line,rest,hline,rfl⟩
      · left
        rw [List.mem_cons,not_or]
        exact ⟨Ne.symm hc,hs⟩
      · refine Or.inr ⟨c::line,rest,?_,rfl⟩
        rw [List.mem_cons,not_or]
        exact ⟨Ne.symm hc,hline⟩

/-- Induction along the lines of a stream. -/
theorem lines_induction {P : Bytes → Prop} (plain : ∀ s, newline ∉ s → P s)
    (line : ∀ line s, newline ∉ line → P s → P (line ++ newline::s)) (s : Bytes) : P s := by
  induction h : s.length using Nat.strong_induction_on generalizing s with
  | _ n ih =>
    rcases plain_or_line s with hs | ⟨first,rest,hfirst,rfl⟩
    · exact plain s hs
    · refine line first rest hfirst (ih rest.length ?_ rest rfl)
      rw [← h,List.length_append,List.length_cons]
      omega

theorem newline_not_mem_unfinished (s : Bytes) : newline ∉ unfinished s := by
  induction s using lines_induction with
  | plain s h => rwa [unfinished_plain h]
  | line line s h ih => rwa [unfinished_line h]

/-- The lines, each with its newline, and the rest make up the stream. -/
theorem flatMap_completeLines (s : Bytes) :
    (completeLines s).flatMap (fun line => line ++ [newline]) ++ unfinished s = s := by
  induction s using lines_induction with
  | plain s h => rw [completeLines_plain h,unfinished_plain h]; rfl
  | line line s h ih =>
    rw [completeLines_line h,unfinished_line h,List.flatMap_cons,List.append_assoc,ih]
    simp

/-- More bytes complete the unfinished line and nothing else. -/
theorem splitLines_append (s t : Bytes) :
    completeLines (s ++ t) = completeLines s ++ completeLines (unfinished s ++ t) ∧
      unfinished (s ++ t) = unfinished (unfinished s ++ t) := by
  induction s using lines_induction with
  | plain s h => simp [completeLines_plain h,unfinished_plain h]
  | line line s h ih =>
    rw [List.append_assoc,List.cons_append,completeLines_line h,completeLines_line h,
      unfinished_line h,unfinished_line h,ih.1,ih.2]
    exact ⟨rfl,rfl⟩

theorem completeLines_append (s t : Bytes) :
    completeLines (s ++ t) = completeLines s ++ completeLines (unfinished s ++ t) :=
  (splitLines_append s t).1

theorem unfinished_append (s t : Bytes) : unfinished (s ++ t) = unfinished (unfinished s ++ t) :=
  (splitLines_append s t).2

/-- Bounds on the lines of a stream bound what is unfinished at any time before. -/
theorem unfinished_length_le {s t : Bytes} {n : ℕ}
    (hlines : ∀ line ∈ completeLines (s ++ t), line.length ≤ n)
    (hrest : (unfinished (s ++ t)).length ≤ n) : (unfinished s).length ≤ n := by
  rw [completeLines_append] at hlines
  rw [unfinished_append] at hrest
  have hplain := newline_not_mem_unfinished s
  rcases plain_or_line t with ht | ⟨line,rest,hline,rfl⟩
  · have hall : newline ∉ unfinished s ++ t := by simp [hplain,ht]
    rw [unfinished_plain hall,List.length_append] at hrest
    omega
  · have hall : newline ∉ unfinished s ++ line := by simp [hplain,hline]
    rw [← List.append_assoc,completeLines_line hall] at hlines
    have hfirst := hlines (unfinished s ++ line) (by simp)
    rw [List.length_append] at hfirst
    omega

end Split

/-- The first line of a buffer, as `memchr` finds its end, and the bytes after its newline. -/
def firstLine (buffer : Bytes) : Option (Bytes × Bytes) :=
  if newline ∈ buffer then
    some (buffer.takeWhile (fun c => c ≠ newline),(buffer.dropWhile (fun c => c ≠ newline)).drop 1)
  else none

theorem firstLine_plain {buffer : Bytes} (h : newline ∉ buffer) : firstLine buffer = none :=
  if_neg h

theorem firstLine_line {line : Bytes} (h : newline ∉ line) (rest : Bytes) :
    firstLine (line ++ newline::rest) = some (line,rest) := by
  have hall : ∀ c ∈ line, decide (c ≠ newline) = true := by
    intro c hc
    simpa using ne_of_mem_of_not_mem hc h
  rw [firstLine,if_pos (by simp),List.takeWhile_append_of_pos hall,
    List.dropWhile_append_of_pos hall]
  simp

theorem firstLine_eq_none {buffer : Bytes} (h : firstLine buffer = none) : newline ∉ buffer := by
  unfold firstLine at h
  split_ifs at h with hmem
  exact hmem

/-- The buffer is its first line, the newline and the rest. -/
theorem firstLine_eq_some {buffer line rest : Bytes}
    (h : firstLine buffer = some (line,rest)) : buffer = line ++ newline::rest := by
  unfold firstLine at h
  split_ifs at h with hmem
  obtain ⟨rfl,rfl⟩ : buffer.takeWhile (fun c => c ≠ newline) = line ∧
      (buffer.dropWhile (fun c => c ≠ newline)).drop 1 = rest := by simpa using h
  have hne : buffer.dropWhile (fun c => c ≠ newline) ≠ [] := by
    intro hnil
    have hall := List.dropWhile_eq_nil_iff.mp hnil newline hmem
    simp at hall
  have hhead : (buffer.dropWhile (fun c => c ≠ newline)).head hne = newline := by
    have hnot := List.head_dropWhile_not (fun c => decide (c ≠ newline)) hne
    simpa using hnot
  have hcons := List.cons_head_tail hne
  rw [hhead,← List.drop_one] at hcons
  rw [hcons]
  exact List.takeWhile_append_dropWhile.symm

theorem firstLine_length {buffer line rest : Bytes}
    (h : firstLine buffer = some (line,rest)) : rest.length < buffer.length := by
  rw [firstLine_eq_some h,List.length_append,List.length_cons]
  omega

/-- The lines taken from a buffer one after the other, each with what it leaves behind. -/
def takenLines (rest : Bytes) : List Bytes → List (Bytes × Bytes)
  | [] => []
  | line::lines =>
    (line,lines.flatMap (fun line => line ++ [newline]) ++ rest)::takenLines rest lines

def linesTaken (buffer : Bytes) : List (Bytes × Bytes) :=
  takenLines (unfinished buffer) (completeLines buffer)

theorem linesTaken_plain {buffer : Bytes} (h : newline ∉ buffer) : linesTaken buffer = [] := by
  rw [linesTaken,completeLines_plain h]
  rfl

theorem linesTaken_line {line : Bytes} (h : newline ∉ line) (rest : Bytes) :
    linesTaken (line ++ newline::rest) = (line,rest)::linesTaken rest := by
  rw [linesTaken,completeLines_line h,unfinished_line h,takenLines,flatMap_completeLines]
  rfl

theorem linesTaken_fst (buffer : Bytes) : (linesTaken buffer).map Prod.fst = completeLines buffer := by
  have h : ∀ rest lines, (takenLines rest lines).map Prod.fst = lines := by
    intro rest lines
    induction lines with
    | nil => rfl
    | cons line lines ih => rw [takenLines,List.map_cons,ih]
  exact h _ _

/-- One connection inside a larger state: whether it is open, its buffer, and what becomes of the
state when a line from it is handled. The handler answers `false` when it has closed the
connection. -/
structure LineReader (σ ε : Type*) where
  isOpen : σ → Bool
  buffer : σ → Bytes
  setBuffer : σ → Bytes → σ
  handle : ε → σ → Bytes → σ × Bool

/-- A line handed to the handler, with its environment and the state it is handled in. -/
structure LineReader.Call (σ ε : Type*) where
  env : ε
  before : σ
  line : Bytes

namespace LineReader

variable {σ ε : Type*}

/-- `while(active)`: take the first line of the buffer and handle it. Every line takes at least
its newline from the buffer, so as many rounds as there are bytes are enough. -/
def loop (R : LineReader σ ε) (envs : ℕ → ε) : ℕ → σ → σ
  | 0,s => s
  | rounds+1,s =>
    if !R.isOpen s then s
    else
      match firstLine (R.buffer s) with
      | none => s
      | some (line,rest) =>
        let r := R.handle (envs rounds) (R.setBuffer s rest) line
        if !r.2 then r.1 else R.loop envs rounds r.1

/-- The calls that the loop makes. -/
def calls (R : LineReader σ ε) (envs : ℕ → ε) : ℕ → σ → List (Call σ ε)
  | 0,_ => []
  | rounds+1,s =>
    if !R.isOpen s then []
    else
      match firstLine (R.buffer s) with
      | none => []
      | some (line,rest) =>
        let r := R.handle (envs rounds) (R.setBuffer s rest) line
        ⟨envs rounds,R.setBuffer s rest,line⟩::(if !r.2 then [] else R.calls envs rounds r.1)

/-- Every call gets one of the answers of the loop. -/
theorem calls_env (R : LineReader σ ε) (envs : ℕ → ε) (rounds : ℕ) (s : σ) :
    ∀ c ∈ R.calls envs rounds s, ∃ k, c.env = envs k := by
  induction rounds generalizing s with
  | zero => simp [calls]
  | succ rounds ih =>
    intro c hc
    rw [calls] at hc
    split_ifs at hc
    · contradiction
    · split at hc
      · contradiction
      · next line rest _ =>
        rcases List.mem_cons.mp hc with rfl | hc
        · exact ⟨rounds,rfl⟩
        · split_ifs at hc
          · contradiction
          · exact ih _ c hc

/-- The buffer is the connection's own: a handled line leaves it alone unless the connection is
closed, and a handler that says so has closed it. -/
structure Lawful (R : LineReader σ ε) : Prop where
  buffer_setBuffer : ∀ s buffer, R.buffer (R.setBuffer s buffer) = buffer
  isOpen_setBuffer : ∀ s buffer, R.isOpen (R.setBuffer s buffer) = R.isOpen s
  buffer_handle : ∀ env s line, R.isOpen s = true → R.isOpen (R.handle env s line).1 = true →
    R.buffer (R.handle env s line).1 = R.buffer s
  closed : ∀ env s line, (R.handle env s line).2 = false → R.isOpen (R.handle env s line).1 = false

/-- A line with what it leaves in the buffer. -/
def Call.taken (R : LineReader σ ε) (call : Call σ ε) : Bytes × Bytes :=
  (call.line,R.buffer call.before)

variable {R : LineReader σ ε}

/-- The loop hands over the lines of the buffer in order, the first one in any case, and stops
early only when the connection is closed. If it is still open, all of them have been handed over
and the buffer holds the unfinished rest. -/
theorem Lawful.loop_spec (hR : R.Lawful) (envs : ℕ → ε) {rounds : ℕ} {s : σ}
    (hopen : R.isOpen s = true) (hrounds : (R.buffer s).length ≤ rounds) :
    (R.calls envs rounds s).map (Call.taken R) <+: linesTaken (R.buffer s) ∧
    (R.calls envs rounds s).head?.map (Call.taken R) = (linesTaken (R.buffer s)).head? ∧
    (R.isOpen (R.loop envs rounds s) = true →
      (R.calls envs rounds s).map (Call.taken R) = linesTaken (R.buffer s) ∧
        R.buffer (R.loop envs rounds s) = unfinished (R.buffer s)) := by
  induction rounds generalizing s with
  | zero =>
    have hnil : R.buffer s = [] := List.eq_nil_of_length_eq_zero (by omega)
    simp [calls,loop,hnil,linesTaken_plain]
  | succ rounds ih =>
    rw [calls,loop,hopen]
    rcases plain_or_line (R.buffer s) with hplain | ⟨line,rest,hline,hbuffer⟩
    · simp [firstLine_plain hplain,linesTaken_plain hplain,unfinished_plain hplain]
    · obtain ⟨r,hr⟩ : ∃ r, R.handle (envs rounds) (R.setBuffer s rest) line = r := ⟨_,rfl⟩
      have htaken : Call.taken R ⟨envs rounds,R.setBuffer s rest,line⟩ = (line,rest) :=
        congrArg (Prod.mk line) (hR.buffer_setBuffer s rest)
      rw [hbuffer,firstLine_line hline,linesTaken_line hline,unfinished_line hline]
      simp only [Bool.not_true,Bool.false_eq_true,if_false,hr,List.map_cons,List.head?_cons,
        Option.map_some,htaken]
      have hrest : r.2 = true → R.isOpen r.1 = true → R.buffer r.1 = rest := by
        intro _ ho
        rw [← hr] at ho ⊢
        rw [hR.buffer_handle _ _ _ (by rwa [hR.isOpen_setBuffer]) ho,hR.buffer_setBuffer]
      cases hgo : r.2 with
      | false =>
        have hclosed : R.isOpen r.1 = false := by
          rw [← hr] at hgo ⊢
          exact hR.closed _ _ _ hgo
        simp [hclosed]
      | true =>
        simp only [Bool.not_true,Bool.false_eq_true,if_false]
        cases ho : R.isOpen r.1 with
        | false =>
          have hstop : R.loop envs rounds r.1 = r.1 ∧ R.calls envs rounds r.1 = [] := by
            cases rounds <;> simp [loop,calls,ho]
          simp [hstop.1,hstop.2,ho]
        | true =>
          have hbuf := hrest hgo ho
          have hlen : (R.buffer r.1).length ≤ rounds := by
            rw [hbuffer,List.length_append,List.length_cons] at hrounds
            rw [hbuf]
            omega
          obtain ⟨hpre,-,hall⟩ := ih ho hlen
          rw [hbuf] at hpre hall
          refine ⟨List.cons_prefix_cons.mpr ⟨rfl,hpre⟩,trivial,fun h => ?_⟩
          obtain ⟨hcalls,hend⟩ := hall h
          exact ⟨congrArg _ hcalls,hend⟩

end LineReader

end NetLab
