import Mathlib

/-! Functions that change a state, log the calls they make and return an integer code, a
negative one standing for failure. Sequencing stops at the first failure. The triples speak
about the state together with the whole log, so one invariant covers data and history. -/
namespace NetLab

structure Outcome (σ κ : Type*) where
  code : ℤ
  state : σ
  calls : List κ

abbrev Stage (σ κ : Type*) := σ → Outcome σ κ

namespace Stage

variable {σ κ : Type*}

/-- Run `g` after `f` unless `f` fails; a failed `f` keeps its changes and calls. -/
def andThen (f g : Stage σ κ) : Stage σ κ := fun s =>
  let o := f s
  if o.code < 0 then o
  else
    let r := g o.state
    ⟨r.code,r.state,o.calls ++ r.calls⟩

theorem andThen_assoc (f g h : Stage σ κ) :
    (f.andThen g).andThen h = f.andThen (g.andThen h) := by
  funext s
  by_cases hf : (f s).code < 0
  · simp [andThen,hf]
  · by_cases hg : (g (f s).state).code < 0 <;> simp [andThen,hf,hg]

/-- From any state and log in `P`, the function ends with code, state and log in `Q`. -/
def Triple (P : σ → List κ → Prop) (f : Stage σ κ) (Q : ℤ → σ → List κ → Prop) : Prop :=
  ∀ s log, P s log → Q (f s).code (f s).state (log ++ (f s).calls)

theorem Triple.andThen {P : σ → List κ → Prop} {Q R : ℤ → σ → List κ → Prop} {f g : Stage σ κ}
    (hf : Triple P f Q) (hfail : ∀ c s log, c < 0 → Q c s log → R c s log)
    (hg : Triple (fun s log => ∃ c, 0 ≤ c ∧ Q c s log) g R) : Triple P (f.andThen g) R := by
  intro s log h
  have hq := hf s log h
  by_cases hc : (f s).code < 0
  · simpa [Stage.andThen,hc] using hfail _ _ _ hc hq
  · simpa [Stage.andThen,hc] using hg _ _ ⟨_,not_lt.mp hc,hq⟩

theorem Triple.conseq {P P' : σ → List κ → Prop} {Q Q' : ℤ → σ → List κ → Prop}
    {f : Stage σ κ} (hf : Triple P f Q) (hp : ∀ s log, P' s log → P s log)
    (hq : ∀ c s log, Q c s log → Q' c s log) : Triple P' f Q' :=
  fun s log h => hq _ _ _ (hf s log (hp s log h))

/-- A sequence in which the condition between the functions holds whatever code the first one
returns. -/
theorem Triple.seq {P Q : σ → List κ → Prop} {R : ℤ → σ → List κ → Prop} {f g : Stage σ κ}
    (hf : Triple P f (fun _ => Q)) (hfail : ∀ c s log, c < 0 → Q s log → R c s log)
    (hg : Triple Q g R) : Triple P (f.andThen g) R := by
  refine hf.andThen hfail fun s log h => ?_
  obtain ⟨-,-,hq⟩ := h
  exact hg s log hq

theorem Triple.and {P P' : σ → List κ → Prop} {Q Q' : ℤ → σ → List κ → Prop} {f : Stage σ κ}
    (h : Triple P f Q) (h' : Triple P' f Q') :
    Triple (fun s log => P s log ∧ P' s log) f (fun c s log => Q c s log ∧ Q' c s log) :=
  fun s log hp => ⟨h s log hp.1,h' s log hp.2⟩

/-- What the last function of a sequence establishes by itself the sequence establishes too,
if failures are exempt. -/
theorem Triple.last {R : ℤ → σ → List κ → Prop} {f g : Stage σ κ}
    (hg : Triple (fun _ _ => True) g R) (hfail : ∀ c s log, c < 0 → R c s log) :
    Triple (fun _ _ => True) (f.andThen g) R :=
  Triple.andThen (Q := fun _ _ _ => True) (fun _ _ _ => trivial) (fun c s log hc _ => hfail c s log hc)
    (hg.conseq (fun _ _ _ => trivial) (fun _ _ _ h => h))

/-- An invariant of a function, whatever code it returns. -/
abbrev Keeps (P : σ → List κ → Prop) (f : Stage σ κ) : Prop := Triple P f (fun _ => P)

theorem Keeps.andThen {P : σ → List κ → Prop} {f g : Stage σ κ} (hf : Keeps P f)
    (hg : Keeps P g) : Keeps P (f.andThen g) :=
  Triple.seq hf (fun _ _ _ _ h => h) hg

/-- What has been logged stays logged. -/
theorem Keeps.mem (a : κ) (f : Stage σ κ) : Keeps (fun _ log => a ∈ log) f :=
  fun _ _ h => List.mem_append_left _ h

/-- Exact failure: from `P` the function fails if and only if `F`, and otherwise ends in `Q`. -/
def Exact (P : σ → Prop) (f : Stage σ κ) (F : Prop) (Q : σ → Prop) : Prop :=
  ∀ s, P s → ((f s).code < 0 ↔ F) ∧ (¬ F → Q (f s).state)

theorem Exact.andThen {P Q R : σ → Prop} {F G : Prop} {f g : Stage σ κ} (hf : Exact P f F Q)
    (hg : Exact Q g G R) : Exact P (f.andThen g) (F ∨ G) R := by
  intro s hs
  obtain ⟨hcode,hq⟩ := hf s hs
  by_cases hF : F
  · have hc := hcode.mpr hF
    simp [Stage.andThen,hc,hF]
  · have hc : ¬ (f s).code < 0 := fun h => hF (hcode.mp h)
    obtain ⟨hcode',hr⟩ := hg _ (hq hF)
    simpa [Stage.andThen,hc,hF] using And.intro hcode' hr

/-- What a function keeps, whatever code it returns, it keeps beside its exact failure. -/
theorem Exact.frame {P Q K : σ → Prop} {F : Prop} {f : Stage σ κ} (hf : Exact P f F Q)
    (hk : ∀ s, K s → K (f s).state) : Exact (fun s => P s ∧ K s) f F (fun s => Q s ∧ K s) := by
  rintro s ⟨hp,hs⟩
  obtain ⟨hcode,hq⟩ := hf s hp
  exact ⟨hcode,fun h => ⟨hq h,hk s hs⟩⟩

theorem Exact.conseq {P P' Q Q' : σ → Prop} {F F' : Prop} {f : Stage σ κ} (hf : Exact P f F Q)
    (hp : ∀ s, P' s → P s) (hF : F ↔ F') (hq : ∀ s, Q s → Q' s) : Exact P' f F' Q' := by
  intro s hs
  obtain ⟨hcode,hr⟩ := hf s (hp s hs)
  exact ⟨hcode.trans hF,fun h => hq _ (hr (fun hh => h (hF.mp hh)))⟩

end Stage
end NetLab
