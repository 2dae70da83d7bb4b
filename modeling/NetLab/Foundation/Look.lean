import NetLab.Foundation.Segment

/-! Bytes in memory, and computations that keep account of the offsets they read. -/
namespace NetLab

abbrev Memory := ℕ → UInt8

/-- The 16-bit number at `i`, which is in network byte order. -/
def ntohs (m : Memory) (i : ℕ) : ℕ := 256*(m i).toNat+(m (i+1)).toNat

/-- A 16-bit number in network byte order. -/
def htons (v : UInt16) : List UInt8 := [(v >>> 8).toUInt8,v.toUInt8]

/-- The bytes `xs` lie in memory from `i` on. -/
def Stored (m : Memory) (i : ℕ) (xs : List UInt8) : Prop := segment m i xs.length = xs

instance (m : Memory) (i : ℕ) (xs : List UInt8) : Decidable (Stored m i xs) :=
  inferInstanceAs (Decidable (_ = _))

section Stored

variable {m : Memory} {i : ℕ} {xs ys : List UInt8}

@[simp] theorem stored_nil : Stored m i [] := rfl

@[simp] theorem stored_append :
    Stored m i (xs ++ ys) ↔ Stored m i xs ∧ Stored m (i+xs.length) ys := by
  rw [Stored,List.length_append,← segment_append]
  constructor
  · intro h
    exact List.append_inj h (segment_length _ _ _)
  · rintro ⟨hxs,hys⟩
    rw [hxs,hys]

@[simp] theorem stored_singleton {x : UInt8} : Stored m i [x] ↔ m i = x := by
  simp [Stored,segment]

@[simp] theorem stored_cons {x : UInt8} : Stored m i (x::xs) ↔ m i = x ∧ Stored m (i+1) xs := by
  rw [← List.singleton_append,stored_append,stored_singleton,List.length_singleton]

theorem Stored.ntohs {v : UInt16} (h : Stored m i (htons v)) : ntohs m i = v.toNat := by
  have hv := v.toNat_lt
  obtain ⟨hhigh,hlow⟩ : m i = (v >>> 8).toUInt8 ∧ m (i+1) = v.toUInt8 := by simpa [htons] using h
  simp only [NetLab.ntohs,hhigh,hlow,UInt16.toNat_toUInt8,UInt16.toNat_shiftRight,
    Nat.shiftRight_eq_div_pow]
  simp only [UInt16.reduceToNat,Nat.reducePow,Nat.reduceMod] at *
  omega

/-- What is written at the start of a memory lies there. -/
theorem stored_storeAt (m : Memory) (xs : List UInt8) : Stored (storeAt m 0 xs) 0 xs :=
  segment_storeAt_self m 0 xs

end Stored

/-- A value together with the offsets that were read for it, in order. -/
structure Looked (α : Type*) where
  value : α
  offsets : List ℕ

/-- A computation over memory that keeps account of what it reads. -/
def Look (α : Type*) := Memory → Looked α

namespace Look

instance : Monad Look where
  pure a := fun _ => ⟨a,[]⟩
  bind x f := fun m => ⟨(f (x m).value m).value,(x m).offsets ++ (f (x m).value m).offsets⟩

/-- Read the `n` bytes from `i` on. -/
def field (i n : ℕ) : Look (List UInt8) := fun m => ⟨segment m i n,List.range' i n⟩

def byte (i : ℕ) : Look UInt8 := fun m => ⟨m i,[i]⟩

/-- Read a 16-bit number in network byte order. -/
def short (i : ℕ) : Look ℕ := fun m => ⟨ntohs m i,[i,i+1]⟩

universe u

variable {α β : Type u} {m : Memory}

@[simp] theorem pure_value (a : α) : ((pure a : Look α) m).value = a := rfl

@[simp] theorem bind_value (x : Look α) (f : α → Look β) :
    ((x >>= f) m).value = (f (x m).value m).value := rfl

@[simp] theorem field_value (i n : ℕ) : (field i n m).value = segment m i n := rfl

@[simp] theorem byte_value (i : ℕ) : (byte i m).value = m i := rfl

@[simp] theorem short_value (i : ℕ) : (short i m).value = ntohs m i := rfl

/-- Every offset read satisfies `P`. -/
def All (P : ℕ → Prop) (x : Looked α) : Prop := ∀ i ∈ x.offsets, P i

variable {P : ℕ → Prop}

@[simp] theorem all_pure (a : α) : All P ((pure a : Look α) m) := by
  intro i hi
  contradiction

@[simp] theorem all_bind (x : Look α) (f : α → Look β) :
    All P ((x >>= f) m) ↔ All P (x m) ∧ All P (f (x m).value m) := by
  simp [All,Bind.bind,or_imp,forall_and]

@[simp] theorem all_field (i n : ℕ) : All P (field i n m) ↔ ∀ k < n, P (i+k) := by
  simp only [All,field,List.mem_range'_1]
  constructor
  · intro h k hk
    exact h (i+k) (by omega)
  · intro h j hj
    have := h (j-i) (by omega)
    rwa [Nat.add_sub_cancel' hj.1] at this

@[simp] theorem all_byte (i : ℕ) : All P (byte i m) ↔ P i := by simp [All,byte]

@[simp] theorem all_short (i : ℕ) : All P (short i m) ↔ P i ∧ P (i+1) := by simp [All,short]

end Look

/-- Where a header lies. -/
structure Span where
  start : ℕ
  size : ℕ

/-- All reads stay below `n`, and a header that does not end before `n` is not read at all. -/
structure Careful {α : Type*} (n : ℕ) (headers : List Span) (x : Looked α) : Prop where
  inside : Look.All (fun i => i < n) x
  skips : ∀ start size, ⟨start,size⟩ ∈ headers → n < start+size →
    Look.All (fun i => i < start ∨ start+size ≤ i) x

end NetLab
