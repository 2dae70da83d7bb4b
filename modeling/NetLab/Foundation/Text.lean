import Mathlib

/-! Byte texts: C strings, decimal numbers as `printf` writes them, and the lines that repeated
`fgets` calls read. -/
namespace NetLab

abbrev Bytes := List UInt8

/-- The bytes of a text in ASCII. -/
def ascii (s : String) : Bytes := s.toList.map (fun c => c.toNat.toUInt8)

def newline : UInt8 := 10
def bar : UInt8 := 124

/-- The C string that starts a memory area: everything before the first NUL. -/
def cstr (s : Bytes) : Bytes := s.takeWhile (fun c => c ≠ 0)

theorem cstr_of_not_mem {s : Bytes} (h : 0 ∉ s) : cstr s = s := by
  apply List.takeWhile_eq_self_iff.mpr
  intro c hc
  simpa using ne_of_mem_of_not_mem hc h

theorem zero_not_mem_cstr (s : Bytes) : 0 ∉ cstr s := by
  intro h
  simpa using List.mem_takeWhile_imp h

section Decimal

def isDigit (c : UInt8) : Bool := decide (48 ≤ c ∧ c ≤ 57)

def digitByte (d : ℕ) : UInt8 := (48+d).toUInt8

/-- The value of a string of digits. -/
def digitsValue (s : Bytes) : ℕ := s.foldl (fun v c => 10*v+(c.toNat-48)) 0

def natDecimal (n : ℕ) : Bytes :=
  if n = 0 then [digitByte 0] else (Nat.digits 10 n).reverse.map digitByte

/-- `%d` and `%ld`. -/
def decimal (n : ℤ) : Bytes := if n < 0 then 45::natDecimal n.natAbs else natDecimal n.natAbs

theorem digitByte_toNat {d : ℕ} (h : d < 10) : (digitByte d).toNat = 48+d := by
  simp only [digitByte,UInt8.toNat_ofNat',Nat.toUInt8_eq]
  omega

theorem isDigit_digitByte {d : ℕ} (h : d < 10) : isDigit (digitByte d) = true := by
  have ht := digitByte_toNat h
  simp only [isDigit,decide_eq_true_eq,UInt8.le_iff_toNat_le,ht]
  exact ⟨Nat.le_add_right 48 d,by change 48+d ≤ 57; omega⟩

theorem isDigit_of_mem_natDecimal {n : ℕ} {c : UInt8} (h : c ∈ natDecimal n) : isDigit c = true := by
  unfold natDecimal at h
  split_ifs at h
  · obtain rfl := List.mem_singleton.mp h
    rfl
  · obtain ⟨d,hd,rfl⟩ := List.mem_map.mp h
    exact isDigit_digitByte (Nat.digits_lt_base (by norm_num) (List.mem_reverse.mp hd))

theorem natDecimal_ne_nil (n : ℕ) : natDecimal n ≠ [] := by
  unfold natDecimal
  split_ifs with h
  · simp
  · simpa using Nat.digits_ne_nil_iff_ne_zero.mpr h

theorem digitsValue_natDecimal (n : ℕ) : digitsValue (natDecimal n) = n := by
  unfold natDecimal
  split_ifs with h
  · rw [h]
    rfl
  · have hdigit : ∀ d ∈ Nat.digits 10 n, (digitByte d).toNat-48 = d := by
      intro d hd
      rw [digitByte_toNat (Nat.digits_lt_base (by norm_num) hd)]
      omega
    have hfold : ∀ ds : List ℕ, (∀ d ∈ ds, (digitByte d).toNat-48 = d) →
        digitsValue (ds.reverse.map digitByte) = Nat.ofDigits 10 ds := by
      intro ds hds
      induction ds with
      | nil => rfl
      | cons d ds ih =>
        have htail := ih (fun e he => hds e (List.mem_cons_of_mem _ he))
        have hhead := hds d List.mem_cons_self
        rw [digitsValue] at htail ⊢
        rw [List.reverse_cons,List.map_append,List.foldl_append,htail,Nat.ofDigits_cons]
        simp only [List.map_cons,List.map_nil,List.foldl_cons,List.foldl_nil,hhead]
        exact Nat.add_comm _ _
    rw [hfold _ hdigit,Nat.ofDigits_digits]

theorem natDecimal_length {n k : ℕ} (hk : 0 < k) (h : n < 10^k) : (natDecimal n).length ≤ k := by
  unfold natDecimal
  split_ifs with hz
  · exact hk
  · rw [List.length_map,List.length_reverse]
    exact (Nat.digits_length_le_iff (by norm_num) n).mpr h

end Decimal

section Lines

/-- Repeated `fgets` calls that may read `room` more bytes of the current line; `acc` holds the
line so far in reverse. -/
def fgetsFrom (size : ℕ) : ℕ → Bytes → Bytes → List Bytes
  | _,acc,[] => if acc = [] then [] else [acc.reverse]
  | room,acc,c::s =>
    if c = newline ∨ room ≤ 1 then (c::acc).reverse::fgetsFrom size (size-1) [] s
    else fgetsFrom size (room-1) (c::acc) s

/-- What `while(fgets(line, size, file))` reads from a file, one buffer after the other. -/
def fgetsLines (size : ℕ) (s : Bytes) : List Bytes := fgetsFrom size (size-1) [] s

@[simp] theorem fgetsLines_nil (size : ℕ) : fgetsLines size [] = [] := rfl

theorem fgetsFrom_line (size : ℕ) {room : ℕ} {acc line s : Bytes} (hline : newline ∉ line)
    (hroom : line.length < room) :
    fgetsFrom size room acc (line ++ newline::s) =
      (acc.reverse ++ line ++ [newline])::fgetsLines size s := by
  induction line generalizing room acc with
  | nil => simp [fgetsFrom,fgetsLines]
  | cons c line ih =>
    rw [List.mem_cons,not_or] at hline
    rw [List.length_cons] at hroom
    have hgo : ¬ (c = newline ∨ room ≤ 1) := by
      rw [not_or]
      exact ⟨fun h => hline.1 h.symm,by omega⟩
    rw [List.cons_append,fgetsFrom,if_neg hgo,ih hline.2 (by omega)]
    simp

/-- A line that fits the buffer with its newline and the final NUL is read in one piece. -/
theorem fgetsLines_line {size : ℕ} {line s : Bytes} (hline : newline ∉ line)
    (hsize : line.length+1 < size) :
    fgetsLines size (line ++ newline::s) = (line ++ [newline])::fgetsLines size s := by
  have hroom : line.length < size-1 := by omega
  have h : fgetsFrom size (size-1) [] (line ++ newline::s) = _ := fgetsFrom_line size hline hroom
  simpa [fgetsLines] using h

/-- A file of such lines is read line by line. -/
theorem fgetsLines_lines {size : ℕ} {lines : List Bytes} (hline : ∀ l ∈ lines, newline ∉ l)
    (hsize : ∀ l ∈ lines, l.length+1 < size) :
    fgetsLines size (lines.flatMap (fun l => l ++ [newline])) =
      lines.map (fun l => l ++ [newline]) := by
  induction lines with
  | nil => rfl
  | cons l lines ih =>
    rw [List.flatMap_cons,List.append_assoc,List.singleton_append,
      fgetsLines_line (hline l List.mem_cons_self) (hsize l List.mem_cons_self),
      ih (fun m hm => hline m (List.mem_cons_of_mem _ hm))
        (fun m hm => hsize m (List.mem_cons_of_mem _ hm)),List.map_cons]

/-- A buffer that `fgets` fills has a newline at most as its last byte. -/
theorem fgetsFrom_newline (size : ℕ) (s : Bytes) : ∀ room acc, newline ∉ acc →
    ∀ l ∈ fgetsFrom size room acc s, newline ∉ l.dropLast := by
  induction s with
  | nil =>
    intro room acc hacc l hl
    rw [fgetsFrom] at hl
    split_ifs at hl
    · contradiction
    · obtain rfl := List.mem_singleton.mp hl
      exact fun h => hacc (List.mem_reverse.mp (List.dropLast_subset _ h))
  | cons c s ih =>
    intro room acc hacc l hl
    rw [fgetsFrom] at hl
    split_ifs at hl with hend
    · rcases List.mem_cons.mp hl with rfl | hl
      · rw [List.reverse_cons,List.dropLast_concat]
        exact fun h => hacc (List.mem_reverse.mp h)
      · exact ih _ [] List.not_mem_nil l hl
    · refine ih _ (c::acc) ?_ l hl
      rw [List.mem_cons,not_or]
      exact ⟨fun h => hend (Or.inl h.symm),hacc⟩

theorem fgetsLines_newline {size : ℕ} {s l : Bytes} (h : l ∈ fgetsLines size s) :
    newline ∉ l.dropLast := fgetsFrom_newline size s _ [] List.not_mem_nil l h

/-- A file that ends where a line does, or is empty. -/
def EndsLine (s : Bytes) : Prop := ∀ c ∈ s.getLast?, c = newline

instance (s : Bytes) : Decidable (EndsLine s) := by
  unfold EndsLine
  infer_instance

theorem endsLine_nil : EndsLine [] := by simp [EndsLine]

theorem EndsLine.append {s t : Bytes} (hs : EndsLine s) (ht : EndsLine t) : EndsLine (s ++ t) := by
  intro c hc
  rw [List.getLast?_append] at hc
  cases h : t.getLast? with
  | none =>
    rw [h] at hc
    exact hs c hc
  | some d =>
    rw [h] at hc
    obtain rfl : d = c := by simpa using hc
    exact ht d h

theorem endsLine_line (line : Bytes) : EndsLine (line ++ [newline]) := by
  intro c hc
  rw [List.getLast?_concat] at hc
  exact (Option.some.inj hc).symm

theorem fgetsFrom_append (size : ℕ) (s t : Bytes) : ∀ room acc,
    fgetsFrom size room acc (s ++ newline::t) =
      fgetsFrom size room acc (s ++ [newline]) ++ fgetsLines size t := by
  induction s with
  | nil => intro room acc; simp [fgetsFrom,fgetsLines]
  | cons c s ih =>
    intro room acc
    rw [List.cons_append,List.cons_append,fgetsFrom,fgetsFrom]
    split_ifs
    · rw [ih,List.cons_append]
    · exact ih _ _

/-- What follows a line end is read on its own. -/
theorem fgetsLines_append {size : ℕ} {s : Bytes} (hs : EndsLine s) (t : Bytes) :
    fgetsLines size (s ++ t) = fgetsLines size s ++ fgetsLines size t := by
  cases hlast : s.getLast? with
  | none =>
    obtain rfl := List.getLast?_eq_none_iff.mp hlast
    rfl
  | some c =>
    obtain ⟨init,rfl⟩ := List.getLast?_eq_some_iff.mp hlast
    obtain rfl := hs c hlast
    rw [List.append_assoc,List.singleton_append]
    exact fgetsFrom_append size init t _ []

end Lines

end NetLab
