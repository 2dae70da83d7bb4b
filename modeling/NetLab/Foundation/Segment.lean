import Mathlib

/-! Contiguous stretches of memory. Memory is a total function on addresses, so staying
inside an array is something to prove about a program and not a fact of its type. -/
namespace NetLab

variable {α : Type*}

/-- The `n` cells from address `a` on. -/
def segment (mem : ℕ → α) (a n : ℕ) : List α := (List.range n).map (fun i => mem (a+i))

/-- Copy a list into memory from address `a` on. -/
def storeAt (mem : ℕ → α) (a : ℕ) (xs : List α) (k : ℕ) : α :=
  if a ≤ k then (xs[k-a]?).getD (mem k) else mem k

/-- Copy `n` cells from `src` to `dst`; the two stretches may overlap. -/
def moveCells (mem : ℕ → α) (dst src n k : ℕ) : α :=
  if dst ≤ k ∧ k < dst+n then mem (src+(k-dst)) else mem k

@[simp] theorem segment_length (mem : ℕ → α) (a n : ℕ) : (segment mem a n).length = n := by
  simp [segment]

@[simp] theorem segment_zero (mem : ℕ → α) (a : ℕ) : segment mem a 0 = [] := rfl

theorem segment_congr {mem mem' : ℕ → α} {a a' n : ℕ} (h : ∀ i < n, mem (a+i) = mem' (a'+i)) :
    segment mem a n = segment mem' a' n := by
  apply List.map_congr_left
  intro i hi
  exact h i (List.mem_range.mp hi)

theorem segment_append (mem : ℕ → α) (a m n : ℕ) :
    segment mem a m ++ segment mem (a+m) n = segment mem a (m+n) := by
  simp [segment,List.range_add,Nat.add_assoc]

theorem segment_drop (mem : ℕ → α) (a m n : ℕ) (h : m ≤ n) :
    (segment mem a n).drop m = segment mem (a+m) (n-m) := by
  obtain ⟨d,rfl⟩ := Nat.exists_eq_add_of_le h
  rw [← segment_append,Nat.add_sub_cancel_left]
  exact List.drop_left' (segment_length _ _ _)

/-- A store is read back exactly. -/
theorem segment_storeAt_self (mem : ℕ → α) (a : ℕ) (xs : List α) :
    segment (storeAt mem a xs) a xs.length = xs := by
  apply List.ext_getElem
  · simp
  · intro i h _
    have hi : i < xs.length := by simpa using h
    simp [segment,storeAt,hi]

/-- A store leaves everything below it alone. -/
theorem segment_storeAt_below (mem : ℕ → α) (a n b : ℕ) (xs : List α) (h : a+n ≤ b) :
    segment (storeAt mem b xs) a n = segment mem a n := by
  apply segment_congr
  intro i hi
  have hb : ¬ b ≤ a+i := by omega
  simp [storeAt,hb]

/-- Appending to a stretch in place appends to the list it holds. -/
theorem segment_storeAt_append (mem : ℕ → α) (a n : ℕ) (xs : List α) :
    segment (storeAt mem (a+n) xs) a (n+xs.length) = segment mem a n ++ xs := by
  rw [← segment_append,segment_storeAt_below _ _ _ _ _ le_rfl,segment_storeAt_self]

theorem segment_moveCells (mem : ℕ → α) (dst src n : ℕ) :
    segment (moveCells mem dst src n) dst n = segment mem src n := by
  apply segment_congr
  intro i hi
  simp [moveCells,hi]

end NetLab
