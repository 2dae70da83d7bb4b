import Mathlib
import NetLab.Foundation.Machine

/-! A machine at the hub of numbered two-way streams, with a copy of one program at the other end
of each. A stream keeps what is put in and not yet taken out, and delivers it in order, in pieces
of any size and at any time. A run of the whole is a run of the hub and a run of each program, and
the streams match: this is all that the two sides need to know of each other. -/
namespace NetLab

/-- A machine, the elements that a step takes from a stream, and those that it puts into each
stream on the way from one state to the next. -/
structure Hub (σ ι α : Type*) where
  machine : Machine σ ι
  takes : σ → ι → Option (ℕ × List α)
  puts : σ → σ → ℕ → List α

/-- The program at the other end of a stream. -/
structure Program (τ κ α : Type*) where
  machine : Machine τ κ
  takes : κ → List α
  puts : τ → κ → List α

/-- The hub, the programs, and what is under way from and to each of them. -/
structure Net (σ τ α : Type*) where
  hub : σ
  programs : ℕ → τ
  up : ℕ → List α
  down : ℕ → List α

inductive NetLabel (ι κ : Type*)
  | hub (a : ι)
  | program (c : ℕ) (b : κ)

section Ends

variable {σ τ ι κ α : Type*}

/-- What a step of the hub takes from stream `c`. -/
def Hub.takesFrom (H : Hub σ ι α) (c : ℕ) (s : σ) (a : ι) : List α :=
  match H.takes s a with
  | none => []
  | some (d,xs) => if d = c then xs else []

/-- What the hub takes from stream `c` in a run. -/
def Hub.taken (H : Hub σ ι α) (c : ℕ) : List ι → σ → List α
  | [],_ => []
  | a::as,s =>
    match H.machine.step s a with
    | none => []
    | some t => H.takesFrom c s a ++ H.taken c as t

/-- What the hub puts into stream `c` in a run. -/
def Hub.given (H : Hub σ ι α) (c : ℕ) : List ι → σ → List α
  | [],_ => []
  | a::as,s =>
    match H.machine.step s a with
    | none => []
    | some t => H.puts s t c ++ H.given c as t

/-- What a program puts into its stream in a run. -/
def Program.written (P : Program τ κ α) : List κ → τ → List α
  | [],_ => []
  | b::bs,p =>
    match P.machine.step p b with
    | none => []
    | some q => P.puts p b ++ P.written bs q

end Ends

namespace NetLabel

variable {ι κ : Type*}

def toHub : NetLabel ι κ → Option ι
  | .hub a => some a
  | .program _ _ => none

def toProgram (c : ℕ) : NetLabel ι κ → Option κ
  | .hub _ => none
  | .program d b => if d = c then some b else none

end NetLabel

/-- The steps of the hub in a run, and those of the program at stream `c`. -/
def hubRun {ι κ : Type*} (ls : List (NetLabel ι κ)) : List ι := ls.filterMap NetLabel.toHub

def programRun {ι κ : Type*} (c : ℕ) (ls : List (NetLabel ι κ)) : List κ :=
  ls.filterMap (NetLabel.toProgram c)

namespace Net

variable {σ τ ι κ α : Type*} [DecidableEq α] {H : Hub σ ι α} {P : Program τ κ α}
variable {w w' : Net σ τ α}

/-- A step of the hub takes what is under way to it; the program's step likewise. -/
def step (H : Hub σ ι α) (P : Program τ κ α) (w : Net σ τ α) : NetLabel ι κ → Option (Net σ τ α)
  | .hub a =>
    (H.machine.step w.hub a).bind fun t =>
      let down := fun c => w.down c ++ H.puts w.hub t c
      match H.takes w.hub a with
      | none => some { w with hub := t, down }
      | some (c,xs) =>
        if xs <+: w.up c then
          some { w with
            hub := t, down, up := Function.update w.up c ((w.up c).drop xs.length) }
        else none
  | .program c b =>
    (P.machine.step (w.programs c) b).bind fun p =>
      if P.takes b <+: w.down c then
        some { w with
          programs := Function.update w.programs c p
          up := Function.update w.up c (w.up c ++ P.puts (w.programs c) b)
          down := Function.update w.down c ((w.down c).drop (P.takes b).length) }
      else none

def machine (H : Hub σ ι α) (P : Program τ κ α) : Machine (Net σ τ α) (NetLabel ι κ) where
  init w := H.machine.init w.hub ∧ (∀ c, P.machine.init (w.programs c)) ∧
    ∀ c, w.up c = [] ∧ w.down c = []
  step := step H P

omit [DecidableEq α] in
theorem prefix_drop {xs ys : List α} (h : xs <+: ys) : xs ++ ys.drop xs.length = ys :=
  List.prefix_iff_eq_append.mp h

/-- What a step of the hub does. -/
theorem step_hub {a : ι} (h : step H P w (.hub a) = some w') :
    H.machine.step w.hub a = some w'.hub ∧ w'.programs = w.programs ∧
    (∀ c, w.up c = H.takesFrom c w.hub a ++ w'.up c) ∧
    ∀ c, w'.down c = w.down c ++ H.puts w.hub w'.hub c := by
  obtain ⟨t,ht,h⟩ := Option.bind_eq_some_iff.mp h
  unfold Hub.takesFrom
  cases htakes : H.takes w.hub a with
  | none =>
    simp only [htakes] at h
    obtain rfl := Option.some.inj h
    exact ⟨ht,rfl,fun _ => rfl,fun _ => rfl⟩
  | some p =>
    obtain ⟨d,xs⟩ := p
    simp only [htakes] at h
    obtain ⟨hpre,rfl⟩ := guarded_eq_some.mp h
    refine ⟨ht,rfl,fun c => ?_,fun _ => rfl⟩
    dsimp only
    by_cases hc : d = c
    · subst hc
      rw [if_pos rfl,Function.update_self,prefix_drop hpre]
    · rw [if_neg hc,Function.update_of_ne (Ne.symm hc),List.nil_append]

/-- What a step of a program does. -/
theorem step_program {d : ℕ} {b : κ} (h : step H P w (.program d b) = some w') :
    w'.hub = w.hub ∧ P.machine.step (w.programs d) b = some (w'.programs d) ∧
    w'.up d = w.up d ++ P.puts (w.programs d) b ∧ w.down d = P.takes b ++ w'.down d ∧
    ∀ c, c ≠ d → w'.programs c = w.programs c ∧ w'.up c = w.up c ∧ w'.down c = w.down c := by
  obtain ⟨p,hp,h⟩ := Option.bind_eq_some_iff.mp h
  obtain ⟨hpre,rfl⟩ := guarded_eq_some.mp h
  refine ⟨rfl,?_,Function.update_self _ _ _,?_,fun c hc => ?_⟩
  · dsimp only
    rw [hp,Function.update_self]
  · dsimp only
    rw [Function.update_self,prefix_drop hpre]
  · exact ⟨Function.update_of_ne hc _ _,Function.update_of_ne hc _ _,Function.update_of_ne hc _ _⟩

/-- A run of the whole, seen from stream `c`. -/
structure Sides (H : Hub σ ι α) (P : Program τ κ α) (c : ℕ) (ls : List (NetLabel ι κ))
    (w w' : Net σ τ α) : Prop where
  hub : H.machine.run (hubRun ls) w.hub = some w'.hub
  program : P.machine.run (programRun c ls) (w.programs c) = some (w'.programs c)
  up : w.up c ++ P.written (programRun c ls) (w.programs c) =
    H.taken c (hubRun ls) w.hub ++ w'.up c
  down : w.down c ++ H.given c (hubRun ls) w.hub =
    (programRun c ls).flatMap P.takes ++ w'.down c

/-- A run of the whole is a run of the hub and runs of the programs, with matching streams. -/
theorem sides {ls : List (NetLabel ι κ)} (h : (machine H P).run ls w = some w') (c : ℕ) :
    Sides H P c ls w w' := by
  induction ls generalizing w with
  | nil =>
    obtain rfl : w = w' := by simpa using h
    exact ⟨rfl,rfl,List.append_nil _,List.append_nil _⟩
  | cons l ls ih =>
    obtain ⟨v,hv,hrun⟩ := Option.bind_eq_some_iff.mp h
    obtain ⟨hhub,hprogram,hup,hdown⟩ := ih hrun
    cases l with
    | hub a =>
      obtain ⟨hstep,hsame,hread,hput⟩ := step_hub (P := P) hv
      have hlabels : hubRun (NetLabel.hub (κ := κ) a::ls) = a::hubRun ls := rfl
      have hothers : programRun c (NetLabel.hub a::ls) = programRun c ls := rfl
      refine ⟨?_,?_,?_,?_⟩
      · rw [hlabels,Machine.run_cons,hstep,Option.bind_some,hhub]
      · rw [hothers,← hsame,hprogram]
      · rw [hlabels,hothers,Hub.taken,hstep,hread c,List.append_assoc,List.append_assoc,← hup,hsame]
      · rw [hlabels,hothers,Hub.given,hstep,← List.append_assoc,← hput c,hdown]
    | program d b =>
      obtain ⟨hsame,hstep,hwrite,hread,hother⟩ := step_program (H := H) hv
      have hlabels : hubRun (NetLabel.program (ι := ι) d b::ls) = hubRun ls := rfl
      by_cases hc : d = c
      · subst hc
        have hself : programRun d (NetLabel.program (ι := ι) d b::ls) = b::programRun d ls := by
          simp [programRun,NetLabel.toProgram]
        refine ⟨?_,?_,?_,?_⟩
        · rw [hlabels,← hsame,hhub]
        · rw [hself,Machine.run_cons,hstep,Option.bind_some,hprogram]
        · rw [hlabels,hself,Program.written,hstep,← List.append_assoc,← hwrite,hup,hsame]
        · rw [hlabels,hself,hread,List.append_assoc,← hsame,hdown,List.flatMap_cons,
            List.append_assoc]
      · have hself : programRun c (NetLabel.program (ι := ι) d b::ls) = programRun c ls := by
          simp [programRun,NetLabel.toProgram,hc]
        obtain ⟨hp,hu,hd⟩ := hother c (Ne.symm hc)
        refine ⟨?_,?_,?_,?_⟩
        · rw [hlabels,← hsame,hhub]
        · rw [hself,← hp,hprogram]
        · rw [hlabels,hself,← hp,← hu,hup,hsame]
        · rw [hlabels,hself,← hd,← hsame,hdown]

end Net

end NetLab
