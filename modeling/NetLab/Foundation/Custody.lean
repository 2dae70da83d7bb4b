import Mathlib

/-! Things taken into custody, lent to somebody else in the order of their coming, and given
back and let go of in that order. The history is a log whose entries are read in four ways; the
ledger says which of the things lent are back and which are still out. -/
namespace NetLab

/-- How the entries of a log are read: a thing taken in, a thing let go of, a loan, and what is
given back for a loan. A loan has an owner and what it must be given back with. -/
structure Custody (ε σ π μ : Type*) where
  taken : ε → Option σ
  freed : ε → Option σ
  lent : ε → Option π
  returned : ε → Option μ
  owner : π → σ
  mapping : π → μ

namespace Custody

variable {ε σ π μ : Type*} (C : Custody ε σ π μ)

/-- The loans `gone` are back, the loans `queue` are out, and everything taken in has been let
go of or belongs to a loan that is out. -/
structure Ledger (log : List ε) (gone queue : List π) : Prop where
  lent : log.filterMap C.lent = gone ++ queue
  returned : log.filterMap C.returned = gone.map C.mapping
  order : (gone.map C.owner).Sublist (log.filterMap C.freed)
  taken : (log.filterMap C.taken).Perm (log.filterMap C.freed ++ queue.map C.owner)

/-- Nothing is out: each loan has been given back once and each thing taken in let go of once. -/
structure Settled (log : List ε) : Prop where
  returned : (log.filterMap C.returned).Perm ((log.filterMap C.lent).map C.mapping)
  freed : (log.filterMap C.taken).Perm (log.filterMap C.freed)

namespace Ledger

variable {C} {log es : List ε} {gone queue : List π}

theorem empty : C.Ledger [] [] [] := ⟨rfl,rfl,List.Sublist.refl _,List.Perm.nil⟩

/-- Entries that say nothing of any loan. -/
theorem silent (h : C.Ledger log gone queue) (ht : es.filterMap C.taken = [])
    (hf : es.filterMap C.freed = []) (hl : es.filterMap C.lent = [])
    (hr : es.filterMap C.returned = []) : C.Ledger (log++es) gone queue := by
  constructor
  · rw [List.filterMap_append,hl,List.append_nil,h.lent]
  · rw [List.filterMap_append,hr,List.append_nil,h.returned]
  · rw [List.filterMap_append,hf,List.append_nil]
    exact h.order
  · rw [List.filterMap_append,List.filterMap_append,ht,hf,List.append_nil,List.append_nil]
    exact h.taken

/-- A thing that is taken in and let go of at once. -/
theorem pass {x : σ} (h : C.Ledger log gone queue) (ht : es.filterMap C.taken = [x])
    (hf : es.filterMap C.freed = [x]) (hl : es.filterMap C.lent = [])
    (hr : es.filterMap C.returned = []) : C.Ledger (log++es) gone queue := by
  constructor
  · rw [List.filterMap_append,hl,List.append_nil,h.lent]
  · rw [List.filterMap_append,hr,List.append_nil,h.returned]
  · rw [List.filterMap_append]
    exact h.order.trans (List.sublist_append_left _ _)
  · rw [List.filterMap_append,List.filterMap_append,ht,hf,List.append_assoc]
    refine (h.taken.append_right [x]).trans ?_
    rw [List.append_assoc]
    exact List.perm_append_comm.append_left _

/-- A new loan goes out behind the others. -/
theorem lend {p : π} (h : C.Ledger log gone queue) (ht : es.filterMap C.taken = [C.owner p])
    (hf : es.filterMap C.freed = []) (hl : es.filterMap C.lent = [p])
    (hr : es.filterMap C.returned = []) : C.Ledger (log++es) gone (queue++[p]) := by
  constructor
  · rw [List.filterMap_append,hl,h.lent,List.append_assoc]
  · rw [List.filterMap_append,hr,List.append_nil,h.returned]
  · rw [List.filterMap_append,hf,List.append_nil]
    exact h.order
  · rw [List.filterMap_append,List.filterMap_append,ht,hf,List.append_nil,List.map_append]
    refine (h.taken.append_right _).trans ?_
    rw [List.append_assoc]
    rfl

/-- The first loan comes back and its owner is let go of. -/
theorem release {p : π} (h : C.Ledger log gone (p::queue)) (ht : es.filterMap C.taken = [])
    (hf : es.filterMap C.freed = [C.owner p]) (hl : es.filterMap C.lent = [])
    (hr : es.filterMap C.returned = [C.mapping p]) : C.Ledger (log++es) (gone++[p]) queue := by
  constructor
  · rw [List.filterMap_append,hl,List.append_nil,h.lent,List.append_assoc]
    rfl
  · rw [List.filterMap_append,hr,h.returned,List.map_append]
    rfl
  · rw [List.filterMap_append,hf,List.map_append]
    exact h.order.append (List.Sublist.refl _)
  · rw [List.filterMap_append,List.filterMap_append,ht,hf,List.append_nil,List.append_assoc]
    exact h.taken

/-- Everything that is out comes back at once, in any order. -/
theorem settle (h : C.Ledger log gone queue) (ht : es.filterMap C.taken = [])
    (hf : (es.filterMap C.freed).Perm (queue.map C.owner)) (hl : es.filterMap C.lent = [])
    (hr : (es.filterMap C.returned).Perm (queue.map C.mapping)) : C.Settled (log++es) := by
  constructor
  · rw [List.filterMap_append,List.filterMap_append,hl,List.append_nil,h.returned,h.lent,
      List.map_append]
    exact hr.append_left _
  · rw [List.filterMap_append,List.filterMap_append,ht,List.append_nil]
    exact h.taken.trans (hf.symm.append_left _)

end Ledger
end Custody
end NetLab
