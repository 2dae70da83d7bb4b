import Mathlib
import NetLab.Foundation.Custody
import NetLab.Foundation.Ring

/-! Emptying a ring cell by cell, in the order of the cells' numbers: what is left in the cells,
what is logged on the way, and that nothing stays lent. -/
namespace NetLab
open NetLab.Ring

/-- The loop logs what each cell has to say, in the order of their numbers, and clears the cells
it has passed. -/
theorem sweep_spec {σ α ε : Type*} (cells : σ → ℕ → α) (log : σ → List ε) (out : α → List ε)
    (clear : α → α) {free : σ → ℕ → σ}
    (hcells : ∀ s i, cells (free s i) = Function.update (cells s) i (clear (cells s i)))
    (hlog : ∀ s i, log (free s i) = log s ++ out (cells s i)) (s : σ) (m : ℕ) :
    log ((List.range m).foldl free s) = log s ++ ((List.range m).map (cells s)).flatMap out ∧
      ∀ k, cells ((List.range m).foldl free s) k = if k < m then clear (cells s k) else cells s k := by
  induction m with
  | zero => simp
  | succ m ih =>
    obtain ⟨ihlog,ihcells⟩ := ih
    have hm : cells ((List.range m).foldl free s) m = cells s m := by
      rw [ihcells,if_neg (lt_irrefl m)]
    rw [List.range_succ,List.foldl_append,List.foldl_cons,List.foldl_nil]
    constructor
    · rw [hlog,ihlog,hm]
      simp
    · intro k
      rw [hcells,hm]
      by_cases hk : k = m
      · subst hk
        simp
      · have hiff : k < m+1 ↔ k < m := by omega
        rw [Function.update_of_ne hk,ihcells]
        simp only [hiff]

/-- Blank cells have nothing to say. -/
theorem flatMap_used {ε α : Type*} {blank : α → Prop} [DecidablePred blank] {out : α → List ε}
    (hblank : ∀ x, blank x → out x = []) (xs : List α) :
    (xs.filter (fun x => ¬ blank x)).flatMap out = xs.flatMap out := by
  induction xs with
  | nil => rfl
  | cons x xs ih =>
    by_cases hx : blank x
    · rw [List.filter_cons_of_neg (by simpa using hx),ih,List.flatMap_cons,hblank x hx,
        List.nil_append]
    · rw [List.filter_cons_of_pos (by simpa using hx),List.flatMap_cons,List.flatMap_cons,ih]

theorem filterMap_flatMap_nil {ε α β : Type*} {f : ε → Option β} {out : α → List ε}
    (hout : ∀ x, (out x).filterMap f = []) (xs : List α) : (xs.flatMap out).filterMap f = [] := by
  induction xs with
  | nil => rfl
  | cons x xs ih => rw [List.flatMap_cons,List.filterMap_append,hout,ih,List.append_nil]

/-- A ring that holds what is out is emptied: nothing is out any more. -/
theorem Custody.Ledger.sweep {ε σ π μ α : Type*} {C : Custody ε σ π μ} {log : List ε}
    {gone queue : List π} {n lo : ℕ} {blank : α → Prop} [DecidablePred blank] {cells : ℕ → α}
    {xs : List α} {out : α → List ε} (h : C.Ledger log gone queue)
    (hcells : Holds n blank cells lo xs) (hlo : lo < n) (hfit : xs.length ≤ n)
    (hused : ∀ x ∈ xs, ¬ blank x) (hblank : ∀ x, blank x → out x = [])
    (htaken : ∀ x, (out x).filterMap C.taken = []) (hlent : ∀ x, (out x).filterMap C.lent = [])
    (hfreed : (xs.flatMap out).filterMap C.freed = queue.map C.owner)
    (hreturned : (xs.flatMap out).filterMap C.returned = queue.map C.mapping) :
    C.Settled (log ++ ((List.range n).map cells).flatMap out) := by
  have hperm := (hcells.perm hlo hfit hused).flatMap_right out
  rw [flatMap_used hblank] at hperm
  refine h.settle (filterMap_flatMap_nil htaken _) ?_ (filterMap_flatMap_nil hlent _) ?_
  · rw [← hfreed]
    exact hperm.filterMap _
  · rw [← hreturned]
    exact hperm.filterMap _

end NetLab
