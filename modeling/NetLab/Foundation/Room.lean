import Mathlib

/-! A room in which the members see each other come and go. Each seat is empty or taken by a
member under a name; of what one member does all the others hear. -/
namespace NetLab

/-- The names under which the seats are taken. -/
abbrev Room (ι ν : Type*) := ι → Option ν

namespace Room

inductive Happening (ι ν μ : Type*)
  | enters (who : ι) (name : ν)
  | speaks (who : ι) (message : μ)
  | leaves (who : ι)
deriving DecidableEq

/-- What has become of the members, as it is announced. -/
inductive Change (ν : Type*)
  | joined (name : ν)
  | left (name : ν)
deriving DecidableEq

variable {ι ν μ : Type*} [DecidableEq ι]

def after (r : Room ι ν) : Happening ι ν μ → Room ι ν
  | .enters who name => Function.update r who (some name)
  | .speaks _ _ => r
  | .leaves who => Function.update r who none

/-- Members speak and leave; one enters on an empty seat under a name of one's own. -/
def Allows (r : Room ι ν) : Happening ι ν μ → Prop
  | .enters who name => r who = none ∧ ∀ i, r i ≠ some name
  | .speaks who _ => (r who).isSome = true
  | .leaves who => (r who).isSome = true

inductive Run : Room ι ν → List (Happening ι ν μ) → Room ι ν → Prop
  | nil (r : Room ι ν) : Run r [] r
  | cons {r r' : Room ι ν} {h : Happening ι ν μ} {hs : List (Happening ι ν μ)}
    (hr : r.Allows h) (ht : Run (r.after h) hs r') : Run r (h::hs) r'

def change (r : Room ι ν) : Happening ι ν μ → Option (Change ν)
  | .enters _ name => some (.joined name)
  | .speaks _ _ => none
  | .leaves who => (r who).map .left

/-- The changes of a run in their order. -/
def changes : Room ι ν → List (Happening ι ν μ) → List (Change ν)
  | _,[] => []
  | r,h::hs => (r.change h).toList ++ changes (r.after h) hs

/-- No two seats are taken under one name. -/
def Distinct (r : Room ι ν) : Prop := ∀ i j name, r i = some name → r j = some name → i = j

/-- The names of any two members are related. -/
def Related (R : ν → ν → Prop) (r : Room ι ν) : Prop :=
  ∀ i j name other, i ≠ j → r i = some name → r j = some other → R name other

/-- A list of names shows who is in the room. -/
structure Shows (view : List ν) (r : Room ι ν) : Prop where
  nodup : view.Nodup
  mem : ∀ name, name ∈ view ↔ ∃ i, r i = some name

variable {r r' r'' : Room ι ν} {h : Happening ι ν μ} {hs hs' : List (Happening ι ν μ)} {i j : ι}
  {name : ν} {view : List ν}

section Runs

theorem Run.single (hr : r.Allows h) : Run r [h] (r.after h) := .cons hr (.nil _)

theorem Run.eq_of_nil (hrun : Run r ([] : List (Happening ι ν μ)) r') : r' = r := by
  cases hrun with
  | nil => rfl

theorem Run.eq_of_single (hrun : Run r [h] r') : r' = r.after h := by
  cases hrun with
  | cons _ hrest =>
    cases hrest with
    | nil => rfl

/-- The changes of a run that is made up of two. -/
theorem Run.changes_append (h : Run r hs r') (hs' : List (Happening ι ν μ)) :
    r.changes (hs ++ hs') = r.changes hs ++ r'.changes hs' := by
  induction h with
  | nil => rfl
  | cons _ _ ih => rw [List.cons_append,changes,changes,ih,List.append_assoc]

theorem after_of_ne (hne : ∀ name, h ≠ .enters i name) (hstay : h ≠ .leaves i) :
    r.after h i = r i := by
  cases h with
  | enters who name =>
    have hi : i ≠ who := fun hi => hne name (by rw [hi])
    exact Function.update_of_ne hi _ _
  | speaks => rfl
  | leaves who =>
    have hi : i ≠ who := fun hi => hstay (by rw [hi])
    exact Function.update_of_ne hi _ _

theorem Allows.stays (hr : r.Allows h) (hi : r i = some name) (hstay : h ≠ .leaves i) :
    r.after h i = some name := by
  rw [after_of_ne ?_ hstay,hi]
  rintro name' rfl
  rw [hr.1] at hi
  contradiction

/-- Who does not leave stays in the room under the same name. -/
theorem Run.stays (hrun : Run r hs r') (hi : r i = some name) (hstay : .leaves i ∉ hs) :
    r' i = some name := by
  induction hrun with
  | nil => exact hi
  | cons hr _ ih =>
    rw [List.mem_cons,not_or] at hstay
    exact ih (hr.stays hi (fun h => hstay.1 h.symm)) hstay.2

end Runs

section Names

/-- What is true of every name that is taken is true of the names in the room. -/
theorem Run.names {P : ν → Prop} (hrun : Run r hs r') (hr : ∀ i name, r i = some name → P name)
    (henters : ∀ i name, .enters i name ∈ hs → P name) : ∀ i name, r' i = some name → P name := by
  induction hrun with
  | nil => exact hr
  | @cons r r' h hs hallows _ ih =>
    refine ih (fun i name hi => ?_) (fun i name hmem => henters i name (List.mem_cons_of_mem _ hmem))
    cases h with
    | enters who new =>
      rw [Room.after,Function.update_apply] at hi
      split_ifs at hi
      · obtain rfl := Option.some.inj hi
        exact henters who _ List.mem_cons_self
      · exact hr i name hi
    | speaks => exact hr i name hi
    | leaves who =>
      rw [Room.after,Function.update_apply] at hi
      split_ifs at hi
      exact hr i name hi

theorem Distinct.after (hd : r.Distinct) (hr : r.Allows h) : (r.after h).Distinct := by
  intro i j name hi hj
  cases h with
  | speaks => exact hd i j name hi hj
  | enters who new =>
    simp only [Room.after,Function.update_apply] at hi hj
    split_ifs at hi hj with hiw hjw hjw
    · rw [hiw,hjw]
    · exact absurd (hj.trans hi.symm) (hr.2 j)
    · exact absurd (hi.trans hj.symm) (hr.2 i)
    · exact hd i j name hi hj
  | leaves who =>
    simp only [Room.after,Function.update_apply] at hi hj
    split_ifs at hi hj
    exact hd i j name hi hj

theorem Run.distinct (hrun : Run r hs r') (hd : r.Distinct) : r'.Distinct := by
  induction hrun with
  | nil => exact hd
  | cons hr _ ih => exact ih (hd.after hr)

/-- The names stay related if each new one is related to those in the room. -/
theorem Related.after {R : ν → ν → Prop} (hR : ∀ name other, R name other → R other name) (hr : r.Related R)
    (hnew : ∀ who name, h = .enters who name → ∀ i other, r i = some other → R name other) :
    (r.after h).Related R := by
  intro i j name other hne hi hj
  cases h with
  | speaks => exact hr i j name other hne hi hj
  | enters who new =>
    simp only [Room.after,Function.update_apply] at hi hj
    split_ifs at hi hj with hiw hjw hjw
    · exact absurd (hiw.trans hjw.symm) hne
    · obtain rfl := Option.some.inj hi
      exact hnew who _ rfl j other hj
    · obtain rfl := Option.some.inj hj
      exact hR _ _ (hnew who _ rfl i name hi)
    · exact hr i j name other hne hi hj
  | leaves who =>
    simp only [Room.after,Function.update_apply] at hi hj
    split_ifs at hi hj
    exact hr i j name other hne hi hj

end Names

section Views

omit [DecidableEq ι] in
theorem Shows.perm {view' : List ν} (hv : Shows view r) (h : view'.Perm view) : Shows view' r :=
  ⟨h.nodup_iff.mpr hv.nodup,fun name => h.mem_iff.trans (hv.mem name)⟩

theorem Shows.enters {who : ι} (hv : Shows view r) (hout : r who = none)
    (hnew : ∀ i, r i ≠ some name) :
    Shows (name::view) (Function.update r who (some name)) where
  nodup := by
    refine List.nodup_cons.mpr ⟨fun hmem => ?_,hv.nodup⟩
    obtain ⟨i,hi⟩ := (hv.mem name).mp hmem
    exact hnew i hi
  mem other := by
    rw [List.mem_cons,hv.mem]
    constructor
    · rintro (rfl | ⟨i,hi⟩)
      · exact ⟨who,Function.update_self _ _ _⟩
      · have hne : i ≠ who := by
          rintro rfl
          rw [hout] at hi
          contradiction
        exact ⟨i,by rw [Function.update_of_ne hne,hi]⟩
    · rintro ⟨i,hi⟩
      rw [Function.update_apply] at hi
      split_ifs at hi
      · exact Or.inl (Option.some.inj hi).symm
      · exact Or.inr ⟨i,hi⟩

variable [DecidableEq ν]

/-- What an announcement makes of a list of the members. -/
def Change.apply (view : List ν) : Change ν → List ν
  | .joined name => name::view
  | .left name => view.erase name

theorem Shows.leaves {who : ι} (hv : Shows view r) (hd : r.Distinct) (hin : r who = some name) :
    Shows (view.erase name) (Function.update r who none) where
  nodup := hv.nodup.erase name
  mem other := by
    rw [hv.nodup.mem_erase_iff,hv.mem]
    constructor
    · rintro ⟨hne,i,hi⟩
      have hiw : i ≠ who := by
        rintro rfl
        exact hne (Option.some.inj (hi.symm.trans hin))
      exact ⟨i,by rw [Function.update_of_ne hiw,hi]⟩
    · rintro ⟨i,hi⟩
      rw [Function.update_apply] at hi
      split_ifs at hi with hiw
      refine ⟨?_,i,hi⟩
      rintro rfl
      exact hiw (hd i who _ hi hin)

/-- One happening, and the view of a member who hears of it. -/
theorem Shows.after (hv : Shows view r) (hd : r.Distinct) (hr : r.Allows h) :
    Shows ((r.change h).toList.foldl Change.apply view) (r.after h) := by
  cases h with
  | enters who name => exact hv.enters hr.1 hr.2
  | speaks => exact hv
  | leaves who =>
    obtain ⟨name,hname⟩ := Option.isSome_iff_exists.mp hr
    simp only [change,hname,Option.map_some,Option.toList_some,List.foldl_cons,List.foldl_nil]
    exact hv.leaves hd hname

/-- A view that is kept by the announced changes shows the room at every time. -/
theorem Run.shows (hrun : Run r hs r') (hv : Shows view r) (hd : r.Distinct) :
    Shows ((r.changes hs).foldl Change.apply view) r' := by
  induction hrun generalizing view with
  | nil => exact hv
  | cons hr _ ih =>
    rw [changes,List.foldl_append]
    exact ih (hv.after hd hr) (hd.after hr)

end Views

section Order

/-- A message with its sender. -/
def Happening.said : Happening ι ν μ → Option (ι × μ)
  | .speaks who message => some (who,message)
  | _ => none

/-- What the member on seat `i` is to hear of the messages of a run. -/
def heardBy (i : ι) (hs : List (Happening ι ν μ)) : List (ι × μ) :=
  (hs.filterMap Happening.said).filter (fun p => p.1 ≠ i)

theorem heardBy_append (i : ι) (hs hs' : List (Happening ι ν μ)) :
    heardBy i (hs ++ hs') = heardBy i hs ++ heardBy i hs' := by
  simp [heardBy]

/-- Two members hear the messages of the others in one order. -/
theorem heardBy_order (i j : ι) (hs : List (Happening ι ν μ)) :
    (heardBy i hs).filter (fun p => p.1 ≠ j) = (heardBy j hs).filter (fun p => p.1 ≠ i) := by
  simp only [heardBy,List.filter_filter]
  exact List.filter_congr (fun p _ => Bool.and_comm _ _)

end Order

end Room
end NetLab
