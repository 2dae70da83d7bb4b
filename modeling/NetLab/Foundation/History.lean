import Mathlib

/-! Logs in the order of events, and what was true whenever an event happened. -/
namespace NetLab

variable {ε : Type*} {P : List ε → ε → Prop} {log : List ε} {e : ε}

/-- Each event of the log came after a history that `P` allows for it. -/
def Throughout (P : List ε → ε → Prop) (log : List ε) : Prop :=
  ∀ pre e post, log = pre ++ e::post → P pre e

theorem throughout_nil : Throughout P [] := by
  intro pre e post h
  simp at h

/-- The last event is to be checked, the earlier ones have been. -/
theorem throughout_snoc : Throughout P (log ++ [e]) ↔ Throughout P log ∧ P log e := by
  constructor
  · intro h
    refine ⟨fun pre f post hlog => h pre f (post ++ [e]) ?_,h log e [] rfl⟩
    rw [hlog,List.append_assoc,List.cons_append]
  · rintro ⟨hall,hlast⟩ pre f post hlog
    rcases List.eq_nil_or_concat' post with rfl | ⟨init,last,rfl⟩
    · obtain ⟨rfl,hef⟩ := List.append_inj' hlog rfl
      obtain rfl : e = f := by simpa using hef
      exact hlast
    · rw [← List.cons_append,← List.append_assoc] at hlog
      exact hall pre f init (List.append_inj' hlog rfl).1

end NetLab
