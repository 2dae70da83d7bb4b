import Mathlib

/-! Rings of `n` cells. A window is a start and a length; the numbers of its cells go around
modulo `n`. A ring whose window holds a list is a bounded queue: it grows at the end of the
window, shrinks at the start, and no cell of the window is ever written by growing. -/
namespace NetLab.Ring

variable {α : Type*} {n lo m d i j k : ℕ}

/-- The cell `i` places after cell `lo`. -/
def cell (n lo i : ℕ) : ℕ := (lo+i) % n

/-- Cell `k` is one of the `m` cells from `lo` on. -/
def Within (n lo m k : ℕ) : Prop := ∃ i, i < m ∧ k = cell n lo i

instance : Decidable (Within n lo m k) :=
  decidable_of_iff (∃ i ∈ List.range m, k = cell n lo i) (by simp [Within])

theorem cell_lt (hn : 0 < n) : cell n lo i < n := Nat.mod_lt _ hn

theorem cell_zero (h : lo < n) : cell n lo 0 = lo := Nat.mod_eq_of_lt h

@[simp] theorem cell_cell : cell n (cell n lo i) j = cell n lo (i+j) := by
  simp [cell,Nat.add_assoc]

/-- Going once around leads back. -/
theorem cell_inj (hi : i < n) (hj : j < n) : cell n lo i = cell n lo j ↔ i = j := by
  refine ⟨fun h => ?_,fun h => by rw [h]⟩
  have hmod : i ≡ j [MOD n] := Nat.ModEq.add_left_cancel' lo h
  exact hmod.eq_of_lt_of_lt hi hj

/-- The places from a cell to another one, going around. -/
theorem cell_distance (hlo : lo < n) (hm : m < n) : (cell n lo m+n-lo) % n = m := by
  unfold cell
  rcases Nat.lt_or_ge (lo+m) n with h | h
  · have he : lo+m+n-lo = m+n := by omega
    rw [Nat.mod_eq_of_lt h,he,Nat.add_mod_right,Nat.mod_eq_of_lt hm]
  · have hmod : (lo+m) % n = lo+m-n := by
      rw [Nat.mod_eq_sub_mod h,Nat.mod_eq_of_lt (by omega)]
    have he : lo+m-n+n-lo = m := by omega
    rw [hmod,he,Nat.mod_eq_of_lt hm]

theorem exists_cell (hlo : lo < n) (hk : k < n) : ∃ i, i < n ∧ k = cell n lo i := by
  rcases Nat.lt_or_ge k lo with h | h
  · refine ⟨n-lo+k,by omega,?_⟩
    have he : lo+(n-lo+k) = k+n := by omega
    rw [cell,he,Nat.add_mod_right,Nat.mod_eq_of_lt hk]
  · refine ⟨k-lo,by omega,?_⟩
    rw [cell,Nat.add_sub_cancel' h,Nat.mod_eq_of_lt hk]

@[simp] theorem not_within_zero : ¬ Within n lo 0 k := by
  rintro ⟨_,h,-⟩
  exact Nat.not_lt_zero _ h

theorem within_cell (hm : m ≤ n) (hi : i < n) : Within n lo m (cell n lo i) ↔ i < m := by
  constructor
  · rintro ⟨j,hj,he⟩
    rwa [(cell_inj hi (hj.trans_le hm)).mp he]
  · intro h
    exact ⟨i,h,rfl⟩

/-- A window that moves its start one cell on loses that cell. -/
theorem within_cell_one : Within n (cell n lo 1) m k ↔ ∃ i, 0 < i ∧ i < m+1 ∧ k = cell n lo i := by
  constructor
  · rintro ⟨i,hi,rfl⟩
    exact ⟨1+i,by omega,by omega,cell_cell⟩
  · rintro ⟨i,h0,hi,rfl⟩
    refine ⟨i-1,by omega,?_⟩
    rw [cell_cell,Nat.add_sub_cancel' h0]

/-- The contents of the `m` cells from `lo` on, in window order. -/
def window (n : ℕ) (cells : ℕ → α) (lo m : ℕ) : List α :=
  (List.range m).map (fun i => cells (cell n lo i))

@[simp] theorem window_length (cells : ℕ → α) : (window n cells lo m).length = m := by
  simp [window]

theorem window_add (cells : ℕ → α) (lo m d : ℕ) :
    window n cells lo (m+d) = window n cells lo m ++ window n cells (cell n lo m) d := by
  simp [window,List.range_add]

/-- The window from `lo` on holds `xs`, and every cell outside it is blank. -/
structure Holds (n : ℕ) (blank : α → Prop) (cells : ℕ → α) (lo : ℕ) (xs : List α) : Prop where
  item : ∀ i (h : i < xs.length), cells (cell n lo i) = xs[i]
  rest : ∀ k, k < n → ¬ Within n lo xs.length k → blank (cells k)

namespace Holds

variable {blank : α → Prop} {cells : ℕ → α} {xs : List α} {x : α}

theorem empty (h : ∀ k, k < n → blank (cells k)) : Holds n blank cells lo [] :=
  ⟨fun _ h => absurd h (Nat.not_lt_zero _),fun k hk _ => h k hk⟩

/-- The list held is what the window reads. -/
theorem window_eq (h : Holds n blank cells lo xs) : window n cells lo xs.length = xs := by
  apply List.ext_getElem (by simp)
  intro i _ hi
  simpa [window] using h.item i hi

theorem front (h : Holds n blank cells lo (x::xs)) (hlo : lo < n) : cells lo = x := by
  have hx := h.item 0 (by simp)
  rwa [cell_zero hlo] at hx

/-- The cell after the window is blank unless the window is the whole ring. -/
theorem next_blank (h : Holds n blank cells lo xs) (hroom : xs.length < n) :
    blank (cells (cell n lo xs.length)) := by
  apply h.rest _ (cell_lt (by omega))
  rw [within_cell hroom.le hroom]
  exact lt_irrefl _

/-- When no listed value is blank, the cells in use are exactly the window. -/
theorem used_iff (h : Holds n blank cells lo xs) (hx : ∀ x ∈ xs, ¬ blank x) (hk : k < n) :
    ¬ blank (cells k) ↔ Within n lo xs.length k := by
  constructor
  · intro hb
    by_contra hw
    exact hb (h.rest k hk hw)
  · rintro ⟨i,hi,rfl⟩
    rw [h.item i hi]
    exact hx _ (List.getElem_mem hi)

/-- Writing a cell outside the window with a blank value changes nothing. -/
theorem write_blank (h : Holds n blank cells lo xs) (hm : xs.length ≤ m) (hmn : m < n)
    (hx : blank x) : Holds n blank (Function.update cells (cell n lo m) x) lo xs := by
  constructor
  · intro i hi
    have hne : cell n lo i ≠ cell n lo m := by
      rw [ne_eq,cell_inj (by omega) hmn]
      omega
    rw [Function.update_of_ne hne,h.item i hi]
  · intro k hk hw
    by_cases he : k = cell n lo m
    · rwa [he,Function.update_self]
    · rw [Function.update_of_ne he]
      exact h.rest k hk hw

theorem mono {blank' : α → Prop} (h : Holds n blank cells lo xs) (hb : ∀ x, blank x → blank' x) :
    Holds n blank' cells lo xs := ⟨h.item,fun k hk hw => hb _ (h.rest k hk hw)⟩

/-- A cell of the window takes another value. -/
theorem set (h : Holds n blank cells lo xs) (hfit : xs.length ≤ n) (hi : i < xs.length) (x : α) :
    Holds n blank (Function.update cells (cell n lo i) x) lo (xs.set i x) := by
  constructor
  · intro j hj
    rw [List.length_set] at hj
    by_cases he : j = i
    · subst he
      rw [Function.update_self,List.getElem_set_self]
    · have hne : cell n lo j ≠ cell n lo i := by
        rw [ne_eq,cell_inj (by omega) (by omega)]
        exact he
      rw [Function.update_of_ne hne,h.item j hj,List.getElem_set_ne (Ne.symm he)]
  · intro k hk hw
    rw [List.length_set] at hw
    have hne : k ≠ cell n lo i := fun he => hw ⟨i,hi,he⟩
    rw [Function.update_of_ne hne]
    exact h.rest k hk hw

/-- The cell after the window takes a new last value. -/
theorem push (h : Holds n blank cells lo xs) (hroom : xs.length < n) (x : α) :
    Holds n blank (Function.update cells (cell n lo xs.length) x) lo (xs++[x]) := by
  constructor
  · intro i hi
    rcases Nat.lt_or_ge i xs.length with hlt | hge
    · have hne : cell n lo i ≠ cell n lo xs.length := by
        rw [ne_eq,cell_inj (by omega) hroom]
        omega
      rw [Function.update_of_ne hne,h.item i hlt,List.getElem_append_left hlt]
    · obtain rfl : i = xs.length := by
        simp only [List.length_append,List.length_singleton] at hi
        omega
      simp
  · intro k hk hw
    have hne : k ≠ cell n lo xs.length := fun he => hw ⟨xs.length,by simp,he⟩
    rw [Function.update_of_ne hne]
    apply h.rest k hk
    rintro ⟨i,hi,he⟩
    exact hw ⟨i,by simp; omega,he⟩

/-- The first cell of the window is blanked and the window starts one cell later. -/
theorem pop (h : Holds n blank cells lo (x::xs)) (hlo : lo < n) (hfit : xs.length < n) {b : α}
    (hb : blank b) : Holds n blank (Function.update cells lo b) (cell n lo 1) xs := by
  have hfirst : cell n lo 0 = lo := cell_zero hlo
  constructor
  · intro i hi
    have hne : cell n lo (1+i) ≠ lo := by
      nth_rewrite 2 [← hfirst]
      rw [ne_eq,cell_inj (by omega) (by omega)]
      omega
    have hitem := h.item (i+1) (by simpa using hi)
    rw [cell_cell,Function.update_of_ne hne,Nat.add_comm 1 i,hitem]
    simp
  · intro k hk hw
    by_cases he : k = lo
    · rwa [he,Function.update_self]
    · rw [Function.update_of_ne he]
      apply h.rest k hk
      rintro ⟨i,hi,hki⟩
      have h0 : i ≠ 0 := by
        rintro rfl
        exact he (hki.trans hfirst)
      exact hw (within_cell_one.mpr ⟨i,by omega,by simpa using hi,hki⟩)

end Holds

/-- Numbering the cells from `lo` on only reorders them. -/
theorem range_perm (hlo : lo < n) : (List.range n).Perm ((List.range n).map (cell n lo)) := by
  have hinj : ((List.range n).map (cell n lo)).Nodup := by
    apply List.Nodup.map_on _ List.nodup_range
    intro i hi j hj h
    exact (cell_inj (List.mem_range.mp hi) (List.mem_range.mp hj)).mp h
  rw [List.perm_ext_iff_of_nodup List.nodup_range hinj]
  intro k
  simp only [List.mem_range,List.mem_map]
  constructor
  · intro hk
    obtain ⟨i,hi,he⟩ := exists_cell hlo hk
    exact ⟨i,hi,he.symm⟩
  · rintro ⟨i,hi,rfl⟩
    exact cell_lt (by omega)

/-- Read in the order of their numbers, the cells in use hold the list in some order. -/
theorem Holds.perm {blank : α → Prop} [DecidablePred blank] {cells : ℕ → α} {xs : List α}
    (h : Holds n blank cells lo xs) (hlo : lo < n) (hfit : xs.length ≤ n)
    (hx : ∀ x ∈ xs, ¬ blank x) :
    (((List.range n).map cells).filter (fun x => ¬ blank x)).Perm xs := by
  have hrot : ((List.range n).map cells).Perm (window n cells lo n) := by
    have := (range_perm hlo).map cells
    simpa only [List.map_map,Function.comp_def,window] using this
  refine (hrot.filter _).trans (List.Perm.of_eq ?_)
  obtain ⟨r,rfl⟩ := Nat.exists_eq_add_of_le hfit
  rw [window_add,h.window_eq,List.filter_append,List.filter_eq_self.mpr (by simpa using hx),
    List.filter_eq_nil_iff.mpr,List.append_nil]
  intro x hmem
  obtain ⟨i,hi,rfl⟩ := List.mem_map.mp hmem
  have hi := List.mem_range.mp hi
  have hb : blank (cells (cell (xs.length+r) (cell (xs.length+r) lo xs.length) i)) := by
    rw [cell_cell]
    apply h.rest _ (cell_lt (by omega))
    rw [within_cell hfit (by omega)]
    omega
  simpa using hb

/-- The cells from `lo` on that a mark has reached: `d` of them, and no other. -/
abbrev Marked (n : ℕ) (marks : ℕ → Bool) (lo d : ℕ) : Prop :=
  Holds n (· = false) marks lo (List.replicate d true)

namespace Marked

variable {marks : ℕ → Bool}

theorem iff_within (h : Marked n marks lo d) (hk : k < n) : marks k = true ↔ Within n lo d k := by
  have hu := h.used_iff (by simp) hk
  simpa using hu

theorem at_cell (h : Marked n marks lo d) (hd : d ≤ n) (hi : i < n) :
    marks (cell n lo i) = true ↔ i < d := by
  rw [h.iff_within (cell_lt (by omega)),within_cell hd hi]

theorem mark (h : Marked n marks lo d) (hd : d < n) :
    Marked n (Function.update marks (cell n lo d) true) lo (d+1) := by
  have hp := Holds.push h (by simpa using hd) true
  rwa [List.length_replicate,← List.replicate_succ'] at hp

theorem clear (h : Marked n marks lo (d+1)) (hlo : lo < n) (hd : d < n) :
    Marked n (Function.update marks lo false) (cell n lo 1) d := by
  rw [Marked,List.replicate_succ] at h
  exact h.pop hlo (by simpa using hd) rfl

theorem unmark (h : Marked n marks lo d) (hm : d ≤ m) (hmn : m < n) :
    Marked n (Function.update marks (cell n lo m) false) lo d :=
  h.write_blank (by simpa using hm) hmn rfl

end Marked
end NetLab.Ring
