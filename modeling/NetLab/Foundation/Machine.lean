import Mathlib

/-! Partial labelled machines, their runs, and the rules for whole-run arguments.
A label carries everything the environment answers during one step, so a step is a partial
function of state and label and every finite run can be evaluated. -/
namespace NetLab

/-- A machine refuses a label in a state by returning `none`. -/
structure Machine (σ ι : Type*) where
  init : σ → Prop
  step : σ → ι → Option σ

/-- A guarded step succeeds exactly when its guard holds. -/
theorem guarded_eq_some {σ : Type*} {c : Prop} [Decidable c] {a b : σ} :
    (if c then some a else none) = some b ↔ c ∧ b = a := by
  by_cases hc : c <;> simp [hc,eq_comm]

namespace Machine

variable {σ ι τ κ : Type*} {M : Machine σ ι} {N : Machine τ κ}
variable {ok : σ → ι → Prop} {ok' : τ → κ → Prop}

/-- States reached by runs whose steps all meet `ok`. -/
inductive ReachableUnder (M : Machine σ ι) (ok : σ → ι → Prop) : σ → Prop
  | init {s} (h : M.init s) : ReachableUnder M ok s
  | step {s a t} (hs : ReachableUnder M ok s) (hok : ok s a) (h : M.step s a = some t) :
    ReachableUnder M ok t

/-- States reached by any run at all. -/
abbrev Reachable (M : Machine σ ι) : σ → Prop := M.ReachableUnder (fun _ _ => True)

/-- An initial property that every permitted step keeps holds in every state reached. The
step may use that its source state is itself reached. -/
theorem ReachableUnder.invariant {I : σ → Prop} (h0 : ∀ s, M.init s → I s)
    (hstep : ∀ s a t, M.ReachableUnder ok s → I s → ok s a → M.step s a = some t → I t)
    {s : σ} (h : M.ReachableUnder ok s) : I s := by
  induction h with
  | init h => exact h0 _ h
  | step hs hok h ih => exact hstep _ _ _ hs ih hok h

theorem ReachableUnder.mono {ok₂ : σ → ι → Prop} (hle : ∀ s a, ok s a → ok₂ s a) {s : σ}
    (h : M.ReachableUnder ok s) : M.ReachableUnder ok₂ s := by
  induction h with
  | init h => exact .init h
  | step _ hok h ih => exact .step ih (hle _ _ hok) h

theorem ReachableUnder.reachable {s : σ} (h : M.ReachableUnder ok s) : M.Reachable s :=
  h.mono (fun _ _ _ => trivial)

/-- A projection maps runs to runs when every step becomes one permitted step or none. -/
theorem ReachableUnder.project (f : σ → τ) (h0 : ∀ s, M.init s → N.init (f s))
    (hstep : ∀ s a t, M.ReachableUnder ok s → ok s a → M.step s a = some t →
      f t = f s ∨ ∃ b, ok' (f s) b ∧ N.step (f s) b = some (f t))
    {s : σ} (h : M.ReachableUnder ok s) : N.ReachableUnder ok' (f s) := by
  induction h with
  | init h => exact .init (h0 _ h)
  | step hs hok h ih =>
    rcases hstep _ _ _ hs hok h with he | ⟨b,hb,hn⟩
    · rwa [he]
    · exact .step ih hb hn

/-- Execute a whole list of labels. -/
def run (M : Machine σ ι) : List ι → σ → Option σ
  | [],s => some s
  | a::as,s => (M.step s a).bind (M.run as)

@[simp] theorem run_nil (s : σ) : M.run [] s = some s := rfl

@[simp] theorem run_cons (a : ι) (as : List ι) (s : σ) :
    M.run (a::as) s = (M.step s a).bind (M.run as) := rfl

theorem run_append (as bs : List ι) (s : σ) :
    M.run (as ++ bs) s = (M.run as s).bind (M.run bs) := by
  induction as generalizing s with
  | nil => rfl
  | cons a as ih =>
    cases h : M.step s a with
    | none => simp [h]
    | some t => simpa [h] using ih t

theorem run_append_eq_some {as bs : List ι} {s u : σ} (h : M.run (as ++ bs) s = some u) :
    ∃ t, M.run as s = some t ∧ M.run bs t = some u := by
  rw [run_append] at h
  exact Option.bind_eq_some_iff.mp h

/-- The machine that also refuses every label outside `ok`. -/
def restrict (M : Machine σ ι) (ok : σ → ι → Prop) [∀ s a, Decidable (ok s a)] : Machine σ ι where
  init := M.init
  step s a := if ok s a then M.step s a else none

/-- An evaluated run of the restricted machine witnesses reachability. -/
theorem ReachableUnder.of_run [∀ s a, Decidable (ok s a)] {as : List ι} {s t : σ}
    (hs : M.ReachableUnder ok s) (h : (M.restrict ok).run as s = some t) :
    M.ReachableUnder ok t := by
  induction as generalizing s with
  | nil =>
    obtain rfl : s = t := by simpa using h
    exact hs
  | cons a as ih =>
    obtain ⟨u,hu,hrun⟩ := Option.bind_eq_some_iff.mp h
    simp only [restrict] at hu
    split at hu
    · next hok => exact ih (.step hs hok hu) hrun
    · contradiction

theorem Reachable.of_run {as : List ι} {s t : σ} (hs : M.Reachable s)
    (h : M.run as s = some t) : M.Reachable t := by
  induction as generalizing s with
  | nil =>
    obtain rfl : s = t := by simpa using h
    exact hs
  | cons a as ih =>
    obtain ⟨u,hu,hrun⟩ := Option.bind_eq_some_iff.mp h
    exact ih (.step hs trivial hu) hrun

/-- Fold an observation of states and labels along a run, as far as it goes. -/
def observe {β : Type*} (M : Machine σ ι) (f : σ → ι → β → β) : List ι → σ → β → β
  | [],_,x => x
  | a::as,s,x =>
    match M.step s a with
    | none => x
    | some t => M.observe f as t (f s a x)

theorem observe_cons {β : Type*} {f : σ → ι → β → β} {s t : σ} {a : ι}
    (h : M.step s a = some t) (as : List ι) (x : β) :
    M.observe f (a::as) s x = M.observe f as t (f s a x) := by
  simp only [observe,h]

theorem observe_append {β : Type*} {f : σ → ι → β → β} {as : List ι} {s t : σ}
    (h : M.run as s = some t) (bs : List ι) (x : β) :
    M.observe f (as ++ bs) s x = M.observe f bs t (M.observe f as s x) := by
  induction as generalizing s x with
  | nil =>
    obtain rfl : s = t := by simpa using h
    rfl
  | cons a as ih =>
    obtain ⟨u,hu,hrun⟩ := Option.bind_eq_some_iff.mp h
    rw [List.cons_append,observe_cons hu,observe_cons hu,ih hrun]

/-- A run keeps a relation between its states and an observation if every step does. -/
theorem observe_invariant {β : Type*} {f : σ → ι → β → β} {I : σ → β → Prop}
    (hstep : ∀ s a t x, M.Reachable s → M.step s a = some t → I s x → I t (f s a x))
    {as : List ι} {s u : σ} {x : β} (hs : M.Reachable s) (hx : I s x)
    (hrun : M.run as s = some u) : I u (M.observe f as s x) := by
  induction as generalizing s x with
  | nil =>
    obtain rfl : s = u := by simpa using hrun
    exact hx
  | cons a as ih =>
    obtain ⟨t,ht,hrun⟩ := Option.bind_eq_some_iff.mp hrun
    rw [observe_cons ht]
    exact ih (.step hs trivial ht) (hstep s a t x hs ht hx) hrun

end Machine
end NetLab
