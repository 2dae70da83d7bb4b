import Mathlib

/-! A writer offers texts, of each of which a first part is taken. It may resume with what has been
left over, or go on with the next text. -/
namespace NetLab

/-- A text of which the first `taken` symbols are taken. -/
structure Offer (α : Type*) where
  text : List α
  taken : ℕ

namespace Offer

variable {α : Type*}

def kept (o : Offer α) : List α := o.text.take o.taken

/-- All of the text is taken. -/
def Whole (o : Offer α) : Prop := o.text.length ≤ o.taken

instance (o : Offer α) : Decidable o.Whole := inferInstanceAs (Decidable (_ ≤ _))

end Offer

variable {α : Type*}

def offered (os : List (Offer α)) : List α := os.flatMap Offer.text

def kept (os : List (Offer α)) : List α := os.flatMap Offer.kept

/-- Each offer after the first is what is left over of the one before; `rest` is left over in the
end. -/
inductive Resumes : List α → List (Offer α) → List α → Prop
  | nil (text : List α) : Resumes text [] text
  | cons {text rest : List α} {os : List (Offer α)} (taken : ℕ)
    (h : Resumes (text.drop taken) os rest) : Resumes text (⟨text,taken⟩::os) rest

/-- Nothing is taken of the offers after one that is not taken whole. -/
def Gapless : List (Offer α) → Prop
  | [] => True
  | o::os => (o.Whole ∧ Gapless os) ∨ kept os = []

instance decidableGapless : (os : List (Offer α)) → Decidable (Gapless os)
  | [] => isTrue trivial
  | o::os =>
    have : Decidable (Gapless os) := decidableGapless os
    inferInstanceAs (Decidable ((o.Whole ∧ Gapless os) ∨ kept os = []))

variable {o : Offer α} {os : List (Offer α)} {text rest : List α}

section Streams

@[simp] theorem offered_nil : offered ([] : List (Offer α)) = [] := rfl

@[simp] theorem kept_nil : kept ([] : List (Offer α)) = [] := rfl

@[simp] theorem offered_cons (o : Offer α) (os : List (Offer α)) :
    offered (o::os) = o.text ++ offered os := List.flatMap_cons

@[simp] theorem kept_cons (o : Offer α) (os : List (Offer α)) :
    kept (o::os) = o.kept ++ kept os := List.flatMap_cons

theorem offered_eq_flatten (os : List (Offer α)) : offered os = (os.map Offer.text).flatten :=
  List.flatMap_def

theorem Offer.kept_prefix (o : Offer α) : o.kept <+: o.text := List.take_prefix _ _

theorem Offer.Whole.kept_eq (h : o.Whole) : o.kept = o.text := List.take_of_length_le h

/-- What is taken comes in the order in which it was offered. -/
theorem kept_sublist (os : List (Offer α)) : (kept os).Sublist (offered os) := by
  induction os with
  | nil => exact .slnil
  | cons o os ih =>
    rw [kept_cons,offered_cons]
    exact o.kept_prefix.sublist.append ih

/-- Everything is taken exactly if every offer is taken whole. -/
theorem kept_eq_offered_iff : kept os = offered os ↔ ∀ o ∈ os, o.Whole := by
  induction os with
  | nil => simp
  | cons o os ih =>
    rw [kept_cons,offered_cons,List.forall_mem_cons,← ih]
    constructor
    · intro h
      have hrest := (kept_sublist os).length_le
      have hlength := congrArg List.length h
      rw [List.length_append,List.length_append,Offer.kept,List.length_take] at hlength
      have hwhole : o.Whole := by
        unfold Offer.Whole
        omega
      rw [hwhole.kept_eq] at h
      exact ⟨hwhole,List.append_cancel_left h⟩
    · rintro ⟨hwhole,hrest⟩
      rw [hwhole.kept_eq,hrest]

/-- Without a gap what is taken begins what was offered. -/
theorem Gapless.kept_prefix (h : Gapless os) : kept os <+: offered os := by
  induction os with
  | nil => exact List.prefix_rfl
  | cons o os ih =>
    rw [kept_cons,offered_cons]
    rcases h with ⟨hwhole,hrest⟩ | hnone
    · rw [hwhole.kept_eq]
      exact (List.prefix_append_right_inj _).mpr (ih hrest)
    · rw [hnone,List.append_nil]
      exact o.kept_prefix.trans (List.prefix_append _ _)

end Streams

section Resuming

/-- Resuming leaves no gap. -/
theorem Resumes.kept_append (h : Resumes text os rest) : kept os ++ rest = text := by
  induction h with
  | nil => rfl
  | @cons text rest os taken _ ih =>
    rw [kept_cons,List.append_assoc,ih]
    exact List.take_append_drop taken text

end Resuming

end NetLab
