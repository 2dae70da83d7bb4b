import NetLab.Foundation.Machine

/-! A bounded pipe with an end-of-stream mark: what one direction of a relay is for.
Bytes are accepted at one end and delivered at the other in order, at most `cap` are held in
between, and the end may be marked only once nothing is held. A move with an empty list is an
attempt that transferred nothing; after the mark even attempts are refused. -/
namespace NetLab

structure Pipe (α : Type*) where
  accepted : List α
  delivered : List α
  finished : Bool
  deriving DecidableEq

namespace Pipe

variable {α : Type*}

inductive Move (α : Type*)
  | accept (xs : List α)
  | deliver (xs : List α)
  | finish
  deriving DecidableEq

def empty : Pipe α := ⟨[],[],false⟩

/-- What has been accepted and not yet delivered. -/
def held (p : Pipe α) : List α := p.accepted.drop p.delivered.length

variable [DecidableEq α]

def step (cap : ℕ) (p : Pipe α) : Move α → Option (Pipe α)
  | .accept xs =>
    if p.finished = false ∧ p.held.length+xs.length ≤ cap then
      some { p with accepted := p.accepted ++ xs }
    else none
  | .deliver xs =>
    if p.finished = false ∧ xs <+: p.held then some { p with delivered := p.delivered ++ xs }
    else none
  | .finish =>
    if p.finished = false ∧ p.held = [] then some { p with finished := true } else none

def machine (α : Type*) [DecidableEq α] (cap : ℕ) : Machine (Pipe α) (Move α) where
  init p := p = empty
  step := step cap

theorem step_accept {cap : ℕ} {p q : Pipe α} {xs : List α} :
    step cap p (.accept xs) = some q ↔
      (p.finished = false ∧ p.held.length+xs.length ≤ cap) ∧
        q = { p with accepted := p.accepted ++ xs } :=
  guarded_eq_some

theorem step_deliver {cap : ℕ} {p q : Pipe α} {xs : List α} :
    step cap p (.deliver xs) = some q ↔
      (p.finished = false ∧ xs <+: p.held) ∧ q = { p with delivered := p.delivered ++ xs } :=
  guarded_eq_some

theorem step_finish {cap : ℕ} {p q : Pipe α} :
    step cap p .finish = some q ↔
      (p.finished = false ∧ p.held = []) ∧ q = { p with finished := true } :=
  guarded_eq_some

/-- The delivered bytes are an initial part of the accepted ones, the rest fits, and the end is
marked only on a drained pipe. -/
structure Sound (cap : ℕ) (p : Pipe α) : Prop where
  delivered_prefix : p.delivered <+: p.accepted
  held_le : p.held.length ≤ cap
  drained : p.finished = true → p.held = []

omit [DecidableEq α] in
theorem Sound.accepted_eq {cap : ℕ} {p : Pipe α} (h : Sound cap p) :
    p.accepted = p.delivered ++ p.held :=
  List.prefix_iff_eq_append.mp h.delivered_prefix |>.symm

omit [DecidableEq α] in
theorem empty_sound (cap : ℕ) : Sound cap (empty : Pipe α) :=
  ⟨List.prefix_rfl,by simp [held,empty],by simp [empty]⟩

theorem step_sound {cap : ℕ} {p q : Pipe α} {m : Move α} (hp : Sound cap p)
    (h : step cap p m = some q) : Sound cap q := by
  have he := hp.accepted_eq
  cases m with
  | accept xs =>
    obtain ⟨⟨hf,hroom⟩,rfl⟩ := step_accept.mp h
    have hl := hp.delivered_prefix.length_le
    have hheld : (p.accepted ++ xs).drop p.delivered.length = p.held ++ xs := by
      rw [List.drop_append_of_le_length hl]; rfl
    refine ⟨hp.delivered_prefix.trans (List.prefix_append _ _),?_,by simp [hf]⟩
    simpa [held,hheld] using hroom
  | deliver xs =>
    obtain ⟨⟨hf,ys,hys⟩,rfl⟩ := step_deliver.mp h
    have ha : p.accepted = (p.delivered ++ xs) ++ ys := by rw [he,← hys,List.append_assoc]
    refine ⟨⟨ys,ha.symm⟩,?_,by simp [hf]⟩
    have hlen := hp.held_le
    rw [← hys] at hlen
    simp only [held,ha,List.drop_left]
    simp only [List.length_append] at hlen
    omega
  | finish =>
    obtain ⟨⟨_,hd⟩,rfl⟩ := step_finish.mp h
    exact ⟨hp.delivered_prefix,hp.held_le,fun _ => hd⟩

/-- The end mark is final: no move, not even an empty one, is accepted after it. -/
theorem step_of_finished {cap : ℕ} {p : Pipe α} (h : p.finished = true) (m : Move α) :
    step cap p m = none := by
  cases m <;> simp [step,h]

theorem run_of_finished {cap : ℕ} {p q : Pipe α} {ms : List (Move α)} (h : p.finished = true)
    (hr : (machine α cap).run ms p = some q) : ms = [] := by
  cases ms with
  | nil => rfl
  | cons m ms => simp [machine,step_of_finished h] at hr

theorem run_sound {cap : ℕ} {p q : Pipe α} {ms : List (Move α)} (hp : Sound cap p)
    (h : (machine α cap).run ms p = some q) : Sound cap q := by
  induction ms generalizing p with
  | nil =>
    obtain rfl : p = q := by simpa using h
    exact hp
  | cons m ms ih =>
    obtain ⟨r,hr,hrun⟩ := Option.bind_eq_some_iff.mp h
    exact ih (step_sound hp hr) hrun

/-- The bytes a move puts in. -/
def Move.accepted : Move α → List α
  | .accept xs => xs
  | _ => []

/-- The bytes a move takes out. -/
def Move.delivered : Move α → List α
  | .deliver xs => xs
  | _ => []

/-- A run adds to both streams what its moves say, in order. -/
theorem run_streams {cap : ℕ} {p q : Pipe α} {ms : List (Move α)}
    (h : (machine α cap).run ms p = some q) :
    q.accepted = p.accepted ++ ms.flatMap Move.accepted ∧
      q.delivered = p.delivered ++ ms.flatMap Move.delivered := by
  induction ms generalizing p with
  | nil =>
    obtain rfl : p = q := by simpa using h
    simp
  | cons m ms ih =>
    obtain ⟨r,hr,hrun⟩ := Option.bind_eq_some_iff.mp h
    change step cap p m = some r at hr
    obtain ⟨ha,hd⟩ := ih hrun
    rw [ha,hd]
    cases m with
    | accept xs =>
      obtain ⟨-,rfl⟩ := step_accept.mp hr
      simp [Move.accepted,Move.delivered]
    | deliver xs =>
      obtain ⟨-,rfl⟩ := step_deliver.mp hr
      simp [Move.accepted,Move.delivered]
    | finish =>
      obtain ⟨-,rfl⟩ := step_finish.mp hr
      simp [Move.accepted,Move.delivered]

/-- In any run the end mark is the last move, and at that point everything accepted has been
delivered. -/
theorem run_finish {cap : ℕ} {q : Pipe α} {pre post : List (Move α)}
    (h : (machine α cap).run (pre ++ .finish :: post) empty = some q) :
    post = [] ∧ q.finished = true ∧ pre.flatMap Move.delivered = pre.flatMap Move.accepted := by
  obtain ⟨p,hpre,hrest⟩ := Machine.run_append_eq_some h
  obtain ⟨r,hr,hpost⟩ := Option.bind_eq_some_iff.mp hrest
  change step cap p .finish = some r at hr
  obtain ⟨⟨_,hd⟩,rfl⟩ := step_finish.mp hr
  obtain rfl := run_of_finished rfl hpost
  have hs := run_sound (empty_sound cap) hpre
  obtain ⟨ha,hdel⟩ := run_streams hpre
  have he := hs.accepted_eq
  rw [hd,List.append_nil] at he
  refine ⟨rfl,by rw [← Option.some.inj hpost],?_⟩
  simpa [ha,hdel,empty] using he.symm

end Pipe
end NetLab
