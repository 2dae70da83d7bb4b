import Mathlib
import NetLab.Foundation.Machine

/-! A gate before a bounded store. One party closes it when it finds the store full, another
takes things out of the store and opens it when it finds it closed. Nobody looks and acts at
once, so what keeps the gate from staying closed is a promise: whoever may have missed the
other's last action is bound to look again. -/
namespace NetLab

/-- What there is to see of a gate: whether it is closed, whether there is room behind it, and
which parties are bound to open it should they find it closed with room. -/
structure Gate (π : Type*) where
  closed : Prop
  room : Prop
  owes : π → Prop

namespace Gate

variable {π : Type*} {g h : Gate π}

/-- A closed gate with room behind it is somebody's to open. -/
def Safe (g : Gate π) : Prop := g.closed → g.room → ∃ p, g.owes p

/-- The ways to act on a gate that leave it safe: to act where it can only lose room or be
opened, and break no promise; to be bound to look again afterwards; to leave it open or full. -/
inductive Move (g h : Gate π) : Prop
  | keep (hclosed : h.closed → g.closed) (hroom : h.room → g.room)
    (howes : ∀ p, g.owes p → h.owes p)
  | owing (p : π) (howes : h.owes p)
  | opened (hopen : ¬ h.closed)
  | full (hfull : ¬ h.room)

theorem Move.refl (g : Gate π) : Move g g := .keep id id fun _ => id

theorem Move.safe (hm : Move g h) (hg : g.Safe) : h.Safe := by
  intro hclosed hroom
  cases hm with
  | keep hc hr ho =>
    obtain ⟨p,hp⟩ := hg (hc hclosed) (hr hroom)
    exact ⟨p,ho p hp⟩
  | owing p ho => exact ⟨p,ho⟩
  | opened ho => exact absurd hclosed ho
  | full hf => exact absurd hroom hf

/-- When nobody is bound to look, a closed gate has no room behind it. -/
theorem Safe.full (hg : g.Safe) (hquiet : ∀ p, ¬ g.owes p) (hclosed : g.closed) : ¬ g.room := by
  intro hroom
  obtain ⟨p,hp⟩ := hg hclosed hroom
  exact hquiet p hp

end Gate

/-- A gate on which every permitted step of a machine moves safely is safe in every state the
machine reaches. -/
theorem Machine.ReachableUnder.gate_safe {σ ι π : Type*} {M : Machine σ ι} {ok : σ → ι → Prop}
    {view : σ → Gate π} (h0 : ∀ s, M.init s → (view s).Safe)
    (hstep : ∀ s a t, M.ReachableUnder ok s → ok s a → M.step s a = some t →
      (view s).Move (view t)) {s : σ} (h : M.ReachableUnder ok s) : (view s).Safe :=
  h.invariant h0 fun s a t hs hsafe hok ht => (hstep s a t hs hok ht).safe hsafe

end NetLab
