import NetLab.Foundation.Text

/-! `sscanf` and `strtol`. A scan returns the values it has assigned, so the length of the result
is the count that `sscanf` returns, except that `EOF` and 0 are both the empty list. -/
namespace NetLab

inductive Directive
  /-- `%d` and `%ld`: a decimal number stored in an integer of `bits` bits. -/
  | int (bits : ℕ)
  /-- `%c` -/
  | char
  /-- `%<width>s` -/
  | word (width : ℕ)
  /-- `%<width>[^<stop>]` -/
  | upTo (width : ℕ) (stop : UInt8)
  /-- White space in the format. -/
  | space
  /-- Any other character of the format. -/
  | literal (c : UInt8)

inductive Value
  | int (n : ℤ)
  | text (s : Bytes)
  deriving DecidableEq

/-- `isspace` in the C locale. -/
def isSpace (c : UInt8) : Bool := decide (c = 32 ∨ (9 ≤ c ∧ c ≤ 13))

def skipSpace (s : Bytes) : Bytes := s.dropWhile isSpace

/-- A number outside `long` is answered with its nearest bound. -/
def clampLong (n : ℤ) : ℤ := max (-2^63) (min n (2^63-1))

/-- The sign and the rest. -/
def readSign : Bytes → Bool × Bytes
  | c::s => if c = 45 then (true,s) else if c = 43 then (false,s) else (false,c::s)
  | [] => (false,[])

/-- The number at the start of `s` as `strtol` reads it, and what follows it; `none` if there is
no number. -/
def readLong (s : Bytes) : Option (ℤ × Bytes) :=
  let r := readSign (skipSpace s)
  let digits := r.2.takeWhile isDigit
  if digits = [] then none
  else
    let n : ℤ := digitsValue digits
    some (clampLong (if r.1 then -n else n),r.2.dropWhile isDigit)

/-- The number at the start of `s`, however large, and what follows it. -/
def readNumber (s : Bytes) : Option (ℤ × Bytes) :=
  let r := readSign (skipSpace s)
  let digits := r.2.takeWhile isDigit
  if digits = [] then none
  else
    let n : ℤ := digitsValue digits
    some (if r.1 then -n else n,r.2.dropWhile isDigit)

/-- `strtol(s, &end, 10)`: the value and the text at `end`. -/
def strtol (s : Bytes) : ℤ × Bytes := (readLong s).getD (0,s)

def scan : List Directive → Bytes → List Value
  | [],_ => []
  | .int bits::fmt,s =>
    match readLong s with
    | none => []
    | some r => .int (r.1.bmod (2^bits))::scan fmt r.2
  | .char::fmt,s =>
    match s with
    | [] => []
    | c::rest => .text [c]::scan fmt rest
  | .word width::fmt,s =>
    let s := skipSpace s
    let t := (s.take width).takeWhile (fun c => !isSpace c)
    if t = [] then [] else .text t::scan fmt (s.drop t.length)
  | .upTo width stop::fmt,s =>
    let t := (s.take width).takeWhile (fun c => c ≠ stop)
    if t = [] then [] else .text t::scan fmt (s.drop t.length)
  | .space::fmt,s => scan fmt (skipSpace s)
  | .literal a::fmt,s =>
    match s with
    | [] => []
    | c::rest => if c = a then scan fmt rest else []

/-- A text that does not go on with a digit. -/
def EndsNumber (s : Bytes) : Prop := ∀ c ∈ s.head?, isDigit c = false

theorem takeWhile_digits {digits s : Bytes} (h : ∀ c ∈ digits, isDigit c = true)
    (hs : EndsNumber s) : (digits ++ s).takeWhile isDigit = digits ∧
      (digits ++ s).dropWhile isDigit = s := by
  have hstop : s.takeWhile isDigit = [] ∧ s.dropWhile isDigit = s := by
    cases s with
    | nil => exact ⟨rfl,rfl⟩
    | cons c s =>
      have hc := hs c rfl
      simp [hc]
  rw [List.takeWhile_append_of_pos h,List.dropWhile_append_of_pos h]
  exact ⟨by rw [hstop.1,List.append_nil],hstop.2⟩

theorem clampLong_eq {n : ℤ} (h : -2^63 ≤ n ∧ n < 2^63) : clampLong n = n := by
  unfold clampLong
  omega

theorem skipSpace_cons {c : UInt8} {s : Bytes} (h : isSpace c = false) : skipSpace (c::s) = c::s := by
  simp [skipSpace,h]

/-- A digit is neither white space nor a sign. -/
theorem readSign_digit {c : UInt8} {s : Bytes} (h : isDigit c = true) :
    readSign (skipSpace (c::s)) = (false,c::s) := by
  simp only [isDigit,decide_eq_true_eq,UInt8.le_iff_toNat_le] at h
  have h48 : (48 : UInt8).toNat = 48 := rfl
  have h57 : (57 : UInt8).toNat = 57 := rfl
  have hne : ∀ k : UInt8, k.toNat < 48 → c ≠ k := by
    rintro k hk rfl
    omega
  have hspace : isSpace c = false := by
    have h13 : ¬ c ≤ 13 := by
      rw [UInt8.le_iff_toNat_le]
      change ¬ c.toNat ≤ 13
      omega
    simp [isSpace,hne 32 (by decide),h13]
  rw [skipSpace_cons hspace]
  simp [readSign,hne 45 (by decide),hne 43 (by decide)]

/-- What `readLong` does after the sign. -/
theorem readLong_of_digits {t digits s : Bytes} {neg : Bool}
    (ht : readSign (skipSpace t) = (neg,digits ++ s)) (hne : digits ≠ [])
    (hdigit : ∀ c ∈ digits, isDigit c = true) (hs : EndsNumber s) :
    readLong t = some (clampLong (if neg then -(digitsValue digits : ℤ) else digitsValue digits),s) := by
  obtain ⟨htake,hdrop⟩ := takeWhile_digits hdigit hs
  simp [readLong,ht,htake,hdrop,hne]

/-- A number is read back from the digits `printf` wrote for it. -/
theorem readLong_decimal {n : ℤ} (hn : -2^63 ≤ n ∧ n < 2^63) {s : Bytes} (hs : EndsNumber s) :
    readLong (decimal n ++ s) = some (n,s) := by
  have hdigit : ∀ c ∈ natDecimal n.natAbs, isDigit c = true :=
    fun _ h => isDigit_of_mem_natDecimal h
  have hne := natDecimal_ne_nil n.natAbs
  unfold decimal
  split_ifs with hneg
  · have hsign : readSign (skipSpace (45::natDecimal n.natAbs ++ s)) =
        (true,natDecimal n.natAbs ++ s) := by
      rw [List.cons_append,skipSpace_cons (by decide)]
      rfl
    rw [readLong_of_digits hsign hne hdigit hs,digitsValue_natDecimal,if_pos rfl,
      show -(n.natAbs : ℤ) = n by omega,clampLong_eq hn]
  · obtain ⟨c,ds,hd⟩ := List.exists_cons_of_ne_nil hne
    have hsign : readSign (skipSpace (natDecimal n.natAbs ++ s)) =
        (false,natDecimal n.natAbs ++ s) := by
      rw [hd,List.cons_append]
      exact readSign_digit (hdigit c (by rw [hd]; exact List.mem_cons_self))
    rw [readLong_of_digits hsign hne hdigit hs,digitsValue_natDecimal,if_neg (by simp),
      show (n.natAbs : ℤ) = n by omega,clampLong_eq hn]

/-- `%d` reads back an `int`, and `%ld` a `long`. -/
theorem scan_decimal {bits : ℕ} {n : ℤ} (hbits : bits = 32 ∨ bits = 64)
    (hn : -2^(bits-1) ≤ n ∧ n < 2^(bits-1)) {s : Bytes} (hs : EndsNumber s) (fmt : List Directive) :
    scan (.int bits::fmt) (decimal n ++ s) = .int n::scan fmt s := by
  have hlong : -2^63 ≤ n ∧ n < 2^63 := by
    rcases hbits with rfl | rfl <;> norm_num at hn ⊢ <;> omega
  have hmod : n.bmod (2^bits) = n := by
    rcases hbits with rfl | rfl <;> norm_num at hn ⊢ <;> rw [Int.bmod_eq_of_le] <;> omega
  simp only [scan,readLong_decimal hlong hs,hmod]

/-- A scan set reads a field that fits its width up to the stop character. -/
theorem scan_upTo {width : ℕ} {stop : UInt8} {t s : Bytes} (hne : t ≠ []) (hwidth : t.length ≤ width)
    (ht : stop ∉ t) (fmt : List Directive) :
    scan (.upTo width stop::fmt) (t ++ stop::s) = .text t::scan fmt (stop::s) := by
  have htake : ((t ++ stop::s).take width).takeWhile (fun c => c ≠ stop) = t := by
    have hall : ∀ c ∈ t, decide (c ≠ stop) = true := by
      intro c hc
      simpa using ne_of_mem_of_not_mem hc ht
    rw [List.take_append,List.take_of_length_le hwidth,List.takeWhile_append_of_pos hall]
    cases width-t.length <;> simp
  simp only [scan,htake,if_neg hne,List.drop_left]

@[simp] theorem scan_literal (a : UInt8) (s : Bytes) (fmt : List Directive) :
    scan (.literal a::fmt) (a::s) = scan fmt s := by
  simp [scan]

section Numbers

theorem readLong_eq (s : Bytes) :
    readLong s = (readNumber s).map (fun r => (clampLong r.1,r.2)) := by
  simp only [readLong,readNumber]
  split_ifs <;> rfl

theorem skipSpace_skipSpace (s : Bytes) : skipSpace (skipSpace s) = skipSpace s :=
  List.dropWhile_idempotent isSpace s

theorem readNumber_skipSpace (s : Bytes) : readNumber (skipSpace s) = readNumber s := by
  simp only [readNumber,skipSpace_skipSpace]

/-- `strtol` is exact where its result is not one of the ends of `long`. -/
theorem strtol_of_readNumber {s rest : Bytes} {n : ℤ} (h : readNumber s = some (n,rest)) :
    strtol s = (clampLong n,rest) := by
  rw [strtol,readLong_eq,h]
  rfl

theorem clampLong_inside {n k : ℤ} (hk : k < 2^63-1) : 1 ≤ clampLong n ∧ clampLong n ≤ k ↔
    1 ≤ n ∧ n ≤ k := by
  unfold clampLong
  omega

end Numbers

section Inversion

variable {s : Bytes} {fmt : List Directive} {v : Value} {vs : List Value}

theorem readLong_suffix {n : ℤ} {rest : Bytes} (h : readLong s = some (n,rest)) : rest <:+ s := by
  have hsign : (readSign (skipSpace s)).2 <:+ s := by
    have hskip : skipSpace s <:+ s := List.dropWhile_suffix _
    refine List.IsSuffix.trans ?_ hskip
    cases skipSpace s with
    | nil => exact List.suffix_rfl
    | cons c t =>
      simp only [readSign]
      split_ifs
      · exact List.suffix_cons c t
      · exact List.suffix_cons c t
      · exact List.suffix_rfl
  simp only [readLong] at h
  by_cases hdigits : (readSign (skipSpace s)).2.takeWhile isDigit = []
  · simp [hdigits] at h
  · rw [if_neg hdigits] at h
    obtain ⟨-,rfl⟩ := Prod.mk.inj (Option.some.inj h)
    exact (List.dropWhile_suffix _).trans hsign

/-- A `%d` that assigns. -/
theorem scan_int_cons {bits : ℕ} (h : scan (.int bits::fmt) s = v::vs) :
    ∃ n rest, readLong s = some (n,rest) ∧ v = .int (n.bmod (2^bits)) ∧ scan fmt rest = vs := by
  rw [scan] at h
  cases hr : readLong s with
  | none => simp [hr] at h
  | some r =>
    rw [hr] at h
    obtain ⟨rfl,rfl⟩ := List.cons.inj h
    exact ⟨r.1,r.2,rfl,rfl,rfl⟩

/-- A scan set that assigns. -/
theorem scan_upTo_cons {width : ℕ} {stop : UInt8} (h : scan (.upTo width stop::fmt) s = v::vs) :
    ∃ t rest, s = t ++ rest ∧ t ≠ [] ∧ t.length ≤ width ∧ stop ∉ t ∧ v = .text t ∧
      scan fmt rest = vs := by
  simp only [scan] at h
  split_ifs at h with hnil
  obtain ⟨rfl,rfl⟩ := List.cons.inj h
  have hpre : (s.take width).takeWhile (fun c => c ≠ stop) <+: s :=
    (List.takeWhile_prefix _).trans (List.take_prefix width s)
  refine ⟨_,_,(List.prefix_iff_eq_append.mp hpre).symm,hnil,?_,?_,rfl,rfl⟩
  · exact (List.takeWhile_prefix _).length_le.trans (List.length_take_le width s)
  · intro hmem
    simpa using List.mem_takeWhile_imp hmem

/-- A `%s` that assigns. -/
theorem scan_word_cons {width : ℕ} (h : scan (.word width::fmt) s = v::vs) :
    ∃ t rest, skipSpace s = t ++ rest ∧ t ≠ [] ∧ t.length ≤ width ∧
      (∀ c ∈ t, isSpace c = false) ∧ v = .text t ∧ scan fmt rest = vs := by
  simp only [scan] at h
  split_ifs at h with hnil
  obtain ⟨rfl,rfl⟩ := List.cons.inj h
  have hpre : ((skipSpace s).take width).takeWhile (fun c => !isSpace c) <+: skipSpace s :=
    (List.takeWhile_prefix _).trans (List.take_prefix width _)
  refine ⟨_,_,(List.prefix_iff_eq_append.mp hpre).symm,hnil,?_,?_,rfl,rfl⟩
  · exact (List.takeWhile_prefix _).length_le.trans (List.length_take_le width _)
  · intro c hc
    simpa using List.mem_takeWhile_imp hc

/-- A literal that is followed by an assignment. -/
theorem scan_literal_cons {a : UInt8} (h : scan (.literal a::fmt) s = v::vs) :
    ∃ rest, s = a::rest ∧ scan fmt rest = v::vs := by
  cases s with
  | nil => simp [scan] at h
  | cons c rest =>
    simp only [scan] at h
    split_ifs at h with hc
    exact ⟨rest,by rw [hc],h⟩

end Inversion

end NetLab
