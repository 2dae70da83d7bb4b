import Mathlib
import NetLab.Foundation.Machine

/-! Resources that are acquired, used and released, some of which are of use only while others are
held. The inventory is a machine that refuses to acquire what is held or lacks what it needs, to
use or release what is not held, and to release what something held still needs. A log that it
accepts is in order, which can be said by counting its entries. -/
namespace NetLab

/-- What is done with a resource. -/
inductive Deed (ρ : Type*)
  | acquire (r : ρ)
  | use (r : ρ)
  | release (r : ρ)
deriving DecidableEq, Repr

def Deed.resource {ρ : Type*} : Deed ρ → ρ
  | .acquire r | .use r | .release r => r

/-- A log that only uses resources, and only those in `P`. -/
def OnlyUses {ρ : Type*} (P : ρ → Prop) (log : List (Deed ρ)) : Prop :=
  ∀ deed ∈ log, ∃ r, P r ∧ deed = .use r

namespace OnlyUses

variable {ρ : Type*} {P : ρ → Prop}

theorem all {rs : List ρ} (h : ∀ r ∈ rs, P r) : OnlyUses P (rs.map Deed.use) := by
  intro deed hdeed
  obtain ⟨r,hr,rfl⟩ := List.mem_map.mp hdeed
  exact ⟨r,h r hr,rfl⟩

theorem nil : OnlyUses P [] := fun _ h => absurd h List.not_mem_nil

theorem one {r : ρ} (h : P r) : OnlyUses P [.use r] := by
  intro deed hdeed
  exact ⟨r,h,List.mem_singleton.mp hdeed⟩

theorem append {l m : List (Deed ρ)} (hl : OnlyUses P l) (hm : OnlyUses P m) :
    OnlyUses P (l ++ m) := by
  intro deed hdeed
  exact (List.mem_append.mp hdeed).elim (hl deed) (hm deed)

end OnlyUses

variable {ρ : Type*} [DecidableEq ρ] {needs : ρ → Finset ρ} {held later : Finset ρ}
variable {log : List (Deed ρ)}

/-- What is held after a deed, when it is allowed. -/
def Deed.perform (needs : ρ → Finset ρ) (held : Finset ρ) : Deed ρ → Option (Finset ρ)
  | .acquire r => if r ∉ held ∧ needs r ⊆ held then some (insert r held) else none
  | .use r => if r ∈ held then some held else none
  | .release r => if r ∈ held ∧ ∀ q ∈ held, r ∉ needs q then some (held.erase r) else none

/-- The resources that are held, from nothing on. -/
def inventory (needs : ρ → Finset ρ) : Machine (Finset ρ) (Deed ρ) where
  init held := held = ∅
  step := Deed.perform needs

/-- Acquired once more than released. -/
def Open (log : List (Deed ρ)) (r : ρ) : Prop := log.count (.acquire r) = log.count (.release r)+1

/-- Released as often as acquired. -/
def Shut (log : List (Deed ρ)) (r : ρ) : Prop := log.count (.acquire r) = log.count (.release r)

/-- Every entry comes at a time when it may: nothing is acquired twice or without what it needs,
nothing is used or released that is not open, and nothing is released before what needs it. -/
structure InOrder (needs : ρ → Finset ρ) (log : List (Deed ρ)) : Prop where
  acquired : ∀ before r after, log = before ++ .acquire r :: after →
    Shut before r ∧ ∀ q ∈ needs r, Open before q
  used : ∀ before r after, log = before ++ .use r :: after → Open before r
  released : ∀ before r after, log = before ++ .release r :: after →
    Open before r ∧ ∀ q, r ∈ needs q → Shut before q

/-- In order but for the uses of `late`, which may come when it is not open. -/
structure InOrderBut (late : ρ) (needs : ρ → Finset ρ) (log : List (Deed ρ)) : Prop where
  acquired : ∀ before r after, log = before ++ .acquire r :: after →
    Shut before r ∧ ∀ q ∈ needs r, Open before q
  used : ∀ before r after, r ≠ late → log = before ++ .use r :: after → Open before r
  released : ∀ before r after, log = before ++ .release r :: after →
    Open before r ∧ ∀ q, r ∈ needs q → Shut before q

/-- The log without the uses of `r`. -/
def withoutUses (r : ρ) (log : List (Deed ρ)) : List (Deed ρ) :=
  log.filter (fun deed => deed ≠ .use r)

section WithoutUses

variable {r q : ρ} {deed : Deed ρ}

@[simp] theorem withoutUses_nil (r : ρ) : withoutUses r ([] : List (Deed ρ)) = [] := rfl

@[simp] theorem withoutUses_append (r : ρ) (l m : List (Deed ρ)) :
    withoutUses r (l ++ m) = withoutUses r l ++ withoutUses r m := List.filter_append ..

theorem withoutUses_cons_of_ne (h : deed ≠ .use r) (log : List (Deed ρ)) :
    withoutUses r (deed::log) = deed :: withoutUses r log :=
  List.filter_cons_of_pos (by simpa using h)

/-- A log that does not use `r`. -/
theorem withoutUses_of_unused (h : .use r ∉ log) : withoutUses r log = log := by
  apply List.filter_eq_self.mpr
  intro deed hdeed
  exact decide_eq_true (ne_of_mem_of_not_mem hdeed h)

theorem count_withoutUses (h : deed ≠ .use r) (log : List (Deed ρ)) :
    (withoutUses r log).count deed = log.count deed :=
  List.count_filter (by simpa using h)

theorem open_withoutUses : Open (withoutUses r log) q ↔ Open log q := by
  unfold Open
  rw [count_withoutUses (by simp),count_withoutUses (by simp)]

theorem shut_withoutUses : Shut (withoutUses r log) q ↔ Shut log q := by
  unfold Shut
  rw [count_withoutUses (by simp),count_withoutUses (by simp)]

/-- A log that is in order without the uses of `r` is in order but for them. -/
theorem InOrder.but (h : InOrder needs (withoutUses r log)) : InOrderBut r needs log := by
  have hat : ∀ before deed after, deed ≠ .use r → log = before ++ deed :: after →
      withoutUses r log = withoutUses r before ++ deed :: withoutUses r after := by
    rintro before deed after hdeed rfl
    rw [withoutUses_append,withoutUses_cons_of_ne hdeed]
  constructor
  · intro before q after hlog
    obtain ⟨hshut,hneeds⟩ := h.acquired _ _ _ (hat _ _ _ (by simp) hlog)
    exact ⟨shut_withoutUses.mp hshut,fun n hn => open_withoutUses.mp (hneeds n hn)⟩
  · intro before q after hq hlog
    have hopen := h.used _ _ _ (hat _ _ _ (by simpa using hq) hlog)
    exact open_withoutUses.mp hopen
  · intro before q after hlog
    obtain ⟨hopen,hneeds⟩ := h.released _ _ _ (hat _ _ _ (by simp) hlog)
    exact ⟨open_withoutUses.mp hopen,fun n hn => shut_withoutUses.mp (hneeds n hn)⟩

/-- Every use of `r` has found the log before it with the property. -/
def UsedUnder (P : List (Deed ρ) → Prop) (r : ρ) (log : List (Deed ρ)) : Prop :=
  ∀ before after, log = before ++ .use r :: after → P before

omit [DecidableEq ρ] in
theorem UsedUnder.of_unused {P : List (Deed ρ) → Prop} (h : .use r ∉ log) : UsedUnder P r log := by
  intro before after hsplit
  rw [hsplit] at h
  simp at h

omit [DecidableEq ρ] in
theorem UsedUnder.mono {P Q : List (Deed ρ) → Prop} (h : UsedUnder P r log)
    (hle : ∀ l, P l → Q l) : UsedUnder Q r log :=
  fun before after hsplit => hle before (h before after hsplit)

omit [DecidableEq ρ] in
theorem UsedUnder.append {P : List (Deed ρ) → Prop} {deeds : List (Deed ρ)}
    (h : UsedUnder P r log) (hdeeds : UsedUnder (fun l => P (log ++ l)) r deeds) :
    UsedUnder P r (log ++ deeds) := by
  intro before after hsplit
  obtain ⟨l,rfl,hl⟩ | ⟨l,rfl,hl⟩ := List.append_eq_append_iff.mp hsplit
  · exact hdeeds l after hl
  · cases l with
    | nil =>
      have hfirst := hdeeds [] after hl.symm
      simpa using hfirst
    | cons deed l =>
      obtain ⟨rfl,-⟩ := List.cons.inj hl
      exact h before l rfl

/-- When the uses of `late` come in time too, all is in order. -/
theorem InOrderBut.inOrder {late : ρ} (h : InOrderBut late needs log)
    (hused : UsedUnder (fun l => Open l late) late log) : InOrder needs log := by
  refine ⟨h.acquired,?_,h.released⟩
  intro before r after hlog
  by_cases hr : r = late
  · subst hr
    exact hused before after hlog
  · exact h.used before r after hr hlog

/-- Deeds that neither get nor give back a resource leave it open, or shut. -/
theorem open_append {deeds : List (Deed ρ)} (hacquire : .acquire r ∉ deeds)
    (hrelease : .release r ∉ deeds) : Open (log ++ deeds) r ↔ Open log r := by
  unfold Open
  rw [List.count_append,List.count_append,List.count_eq_zero_of_not_mem hacquire,
    List.count_eq_zero_of_not_mem hrelease]
  rfl

theorem shut_append {deeds : List (Deed ρ)} (hacquire : .acquire r ∉ deeds)
    (hrelease : .release r ∉ deeds) : Shut (log ++ deeds) r ↔ Shut log r := by
  unfold Shut
  rw [List.count_append,List.count_append,List.count_eq_zero_of_not_mem hacquire,
    List.count_eq_zero_of_not_mem hrelease]
  rfl

theorem Shut.not_open (h : Shut log r) : ¬ Open log r := by
  unfold Shut at h
  unfold Open
  omega

end WithoutUses

theorem count_snoc_self (log : List (Deed ρ)) (deed : Deed ρ) :
    (log ++ [deed]).count deed = log.count deed+1 := by
  rw [List.count_append,List.count_singleton_self]

theorem count_snoc_of_ne (log : List (Deed ρ)) {deed other : Deed ρ} (h : deed ≠ other) :
    (log ++ [deed]).count other = log.count other := by
  have hne : other ∉ [deed] := by simpa using h.symm
  rw [List.count_append,List.count_eq_zero_of_not_mem hne,Nat.add_zero]

/-- The books of a log that has been accepted: what is held is open, the rest is shut. -/
structure Books (log : List (Deed ρ)) (held : Finset ρ) : Prop where
  opened : ∀ r ∈ held, Open log r
  rest : ∀ r ∉ held, Shut log r

namespace Books

theorem empty : Books ([] : List (Deed ρ)) ∅ := ⟨by simp,fun _ _ => rfl⟩

theorem not_held (h : Books log held) {r : ρ} (hshut : Shut log r) : r ∉ held := by
  intro hr
  have hopen := h.opened r hr
  unfold Open at hopen
  unfold Shut at hshut
  omega

/-- A deed leaves the books of the other resources alone. -/
theorem frame (h : Books log held) {deed : Deed ρ} {r : ρ} (hacquire : deed ≠ .acquire r)
    (hrelease : deed ≠ .release r) :
    (r ∈ held → Open (log ++ [deed]) r) ∧ (r ∉ held → Shut (log ++ [deed]) r) := by
  unfold Open Shut
  rw [count_snoc_of_ne log hacquire,count_snoc_of_ne log hrelease]
  exact ⟨h.opened r,h.rest r⟩

theorem snoc (h : Books log held) {deed : Deed ρ} (hdeed : deed.perform needs held = some later) :
    Books (log ++ [deed]) later := by
  cases deed with
  | acquire r =>
    obtain ⟨⟨hr,-⟩,rfl⟩ := guarded_eq_some.mp hdeed
    have hnew : Open (log ++ [.acquire r]) r := by
      have hshut := h.rest r hr
      unfold Shut at hshut
      unfold Open
      rw [count_snoc_self,count_snoc_of_ne log (by simp),hshut]
    refine ⟨fun q hq => ?_,fun q hq => ?_⟩
    · by_cases hqr : q = r
      · exact hqr ▸ hnew
      · exact (h.frame (by simpa using Ne.symm hqr) (by simp)).1 (Finset.mem_of_mem_insert_of_ne hq hqr)
    · rw [Finset.mem_insert,not_or] at hq
      exact (h.frame (by simpa using Ne.symm hq.1) (by simp)).2 hq.2
  | use r =>
    obtain ⟨-,rfl⟩ := guarded_eq_some.mp hdeed
    exact ⟨fun q => (h.frame (by simp) (by simp)).1,fun q => (h.frame (by simp) (by simp)).2⟩
  | release r =>
    obtain ⟨⟨hr,-⟩,rfl⟩ := guarded_eq_some.mp hdeed
    have hgone : Shut (log ++ [.release r]) r := by
      have hopen := h.opened r hr
      unfold Open at hopen
      unfold Shut
      rw [count_snoc_self,count_snoc_of_ne log (by simp),hopen]
    refine ⟨fun q hq => ?_,fun q hq => ?_⟩
    · obtain ⟨hqr,hq⟩ := Finset.mem_erase.mp hq
      exact (h.frame (by simp) (by simpa using Ne.symm hqr)).1 hq
    · by_cases hqr : q = r
      · exact hqr ▸ hgone
      · exact (h.frame (by simp) (by simpa using Ne.symm hqr)).2 fun hmem =>
          hq (Finset.mem_erase.mpr ⟨hqr,hmem⟩)

end Books

/-- Everything held has what it needs. -/
def Grounded (needs : ρ → Finset ρ) (held : Finset ρ) : Prop := ∀ q ∈ held, needs q ⊆ held

omit [DecidableEq ρ] in
theorem Grounded.unneeded (h : Grounded needs held) {r : ρ} (hr : r ∉ held) :
    ∀ q ∈ held, r ∉ needs q := fun q hq hneeds => hr (h q hq hneeds)

theorem Grounded.insert (h : Grounded needs held) {r : ρ} (hneeds : needs r ⊆ held) :
    Grounded needs (insert r held) := by
  intro q hq
  obtain rfl | hq := Finset.mem_insert.mp hq
  · exact hneeds.trans (Finset.subset_insert _ _)
  · exact (h q hq).trans (Finset.subset_insert _ _)

theorem Grounded.perform (h : Grounded needs held) {deed : Deed ρ}
    (hdeed : deed.perform needs held = some later) : Grounded needs later := by
  cases deed with
  | acquire r =>
    obtain ⟨⟨-,hneeds⟩,rfl⟩ := guarded_eq_some.mp hdeed
    exact h.insert hneeds
  | use r =>
    obtain ⟨-,rfl⟩ := guarded_eq_some.mp hdeed
    exact h
  | release r =>
    obtain ⟨⟨-,hfree⟩,rfl⟩ := guarded_eq_some.mp hdeed
    intro q hq
    obtain ⟨-,hq⟩ := Finset.mem_erase.mp hq
    exact Finset.subset_erase.mpr ⟨h q hq,hfree q hq⟩

namespace Inventory

/-- Carry out a deed that is allowed. -/
theorem run_deed {deed : Deed ρ} (h : deed.perform needs held = some later) (log : List (Deed ρ)) :
    (inventory needs).run (deed::log) held = (inventory needs).run log later := by
  have hstep : (inventory needs).step held deed = some later := h
  rw [Machine.run_cons,hstep,Option.bind_some]

theorem run_acquire {r : ρ} (hr : r ∉ held) (hneeds : needs r ⊆ held) (log : List (Deed ρ)) :
    (inventory needs).run (.acquire r::log) held = (inventory needs).run log (insert r held) :=
  run_deed (show Deed.perform needs held (.acquire r) = _ from if_pos ⟨hr,hneeds⟩) log

theorem run_use {r : ρ} (hr : r ∈ held) (log : List (Deed ρ)) :
    (inventory needs).run (.use r::log) held = (inventory needs).run log held :=
  run_deed (show Deed.perform needs held (.use r) = _ from if_pos hr) log

/-- Give back what was got last. -/
theorem run_release {r : ρ} (hr : r ∉ held) (hself : r ∉ needs r)
    (hfree : ∀ q ∈ held, r ∉ needs q) (log : List (Deed ρ)) :
    (inventory needs).run (.release r::log) (insert r held) = (inventory needs).run log held := by
  have hdeed : Deed.perform needs (insert r held) (.release r) = some held := by
    rw [Deed.perform,Finset.erase_insert hr]
    refine if_pos ⟨Finset.mem_insert_self _ _,fun q hq => ?_⟩
    obtain rfl | hq := Finset.mem_insert.mp hq
    · exact hself
    · exact hfree q hq
  exact run_deed hdeed log

theorem grounded_from (h : Grounded needs held)
    (hrun : (inventory needs).run log held = some later) : Grounded needs later := by
  induction log generalizing held with
  | nil =>
    obtain rfl : held = later := by simpa using hrun
    exact h
  | cons deed log ih =>
    obtain ⟨mid,hdeed,hrun⟩ := Option.bind_eq_some_iff.mp hrun
    exact ih (h.perform hdeed) hrun

theorem grounded (hrun : (inventory needs).run log ∅ = some held) : Grounded needs held := by
  refine grounded_from (fun q hq => ?_) hrun
  exact absurd hq (Finset.notMem_empty q)

theorem books_from {before : List (Deed ρ)} (h : Books before held)
    (hrun : (inventory needs).run log held = some later) : Books (before ++ log) later := by
  induction log generalizing before held with
  | nil =>
    obtain rfl : held = later := by simpa using hrun
    simpa using h
  | cons deed log ih =>
    obtain ⟨mid,hdeed,hrun⟩ := Option.bind_eq_some_iff.mp hrun
    have hbooks := ih (h.snoc hdeed) hrun
    rwa [List.append_assoc] at hbooks

theorem books (hrun : (inventory needs).run log ∅ = some held) : Books log held := by
  have hall : Books ([] ++ log) held := books_from Books.empty hrun
  exact hall

/-- A log that the inventory accepts is in order. -/
theorem inOrder (hrun : (inventory needs).run log ∅ = some held) : InOrder needs log := by
  have hat : ∀ before deed after, log = before ++ deed :: after →
      ∃ mid later, Books before mid ∧ deed.perform needs mid = some later := by
    rintro before deed after rfl
    obtain ⟨mid,hbefore,hrest⟩ := Machine.run_append_eq_some hrun
    obtain ⟨later,hdeed,-⟩ := Option.bind_eq_some_iff.mp hrest
    exact ⟨mid,later,books hbefore,hdeed⟩
  constructor
  · intro before r after h
    obtain ⟨mid,later,hbooks,hdeed⟩ := hat _ _ _ h
    obtain ⟨⟨hr,hneeds⟩,-⟩ := guarded_eq_some.mp hdeed
    exact ⟨hbooks.rest r hr,fun q hq => hbooks.opened q (hneeds hq)⟩
  · intro before r after h
    obtain ⟨mid,later,hbooks,hdeed⟩ := hat _ _ _ h
    obtain ⟨hr,-⟩ := guarded_eq_some.mp hdeed
    exact hbooks.opened r hr
  · intro before r after h
    obtain ⟨mid,later,hbooks,hdeed⟩ := hat _ _ _ h
    obtain ⟨⟨hr,hneeds⟩,-⟩ := guarded_eq_some.mp hdeed
    exact ⟨hbooks.opened r hr,fun q hq => hbooks.rest q fun hmem => hneeds q hmem hq⟩

/-- A machine that logs what it does to resources is in order if every step's deeds lead from
what its source holds to what its target holds. -/
theorem accounts {σ ι : Type*} {M : Machine σ ι} {ok : σ → ι → Prop}
    (entries : σ → List (Deed ρ)) (holding : σ → Finset ρ)
    (h0 : ∀ s, M.init s → entries s = [] ∧ holding s = ∅)
    (hstep : ∀ s a t, M.ReachableUnder ok s → ok s a → M.step s a = some t → ∃ deeds,
      entries t = entries s ++ deeds ∧
      (inventory needs).run deeds (holding s) = some (holding t))
    {s : σ} (h : M.ReachableUnder ok s) :
    (inventory needs).run (entries s) ∅ = some (holding s) := by
  induction h with
  | init h =>
    obtain ⟨hentries,hholding⟩ := h0 _ h
    rw [hentries,hholding]
    rfl
  | step hs hok h ih =>
    obtain ⟨deeds,hentries,hrun⟩ := hstep _ _ _ hs hok h
    rw [hentries,Machine.run_append,ih,Option.bind_some,hrun]

/-- What a log does not touch, and does not take the ground from, may be held besides. -/
theorem run_frame {besides : Finset ρ} (hrun : (inventory needs).run log held = some later)
    (hapart : ∀ r ∈ besides, .acquire r ∉ log ∧ .release r ∉ log)
    (hground : ∀ q ∈ besides, ∀ r ∈ needs q, .release r ∉ log) :
    (inventory needs).run log (held ∪ besides) = some (later ∪ besides) := by
  induction log generalizing held with
  | nil =>
    obtain rfl : held = later := by simpa using hrun
    rfl
  | cons deed log ih =>
    obtain ⟨mid,hdeed,hrest⟩ := Option.bind_eq_some_iff.mp hrun
    have hlater := ih hrest
      (fun r hr => ⟨fun h => (hapart r hr).1 (List.mem_cons_of_mem _ h),
        fun h => (hapart r hr).2 (List.mem_cons_of_mem _ h)⟩)
      (fun q hq r hr h => hground q hq r hr (List.mem_cons_of_mem _ h))
    have hstep : deed.perform needs (held ∪ besides) = some (mid ∪ besides) := by
      cases deed with
      | acquire r =>
        obtain ⟨⟨hr,hneeds⟩,rfl⟩ := guarded_eq_some.mp hdeed
        have hr' : r ∉ besides := fun h => (hapart r h).1 (List.mem_cons_self ..)
        rw [Finset.insert_union]
        refine if_pos ⟨?_,hneeds.trans Finset.subset_union_left⟩
        rw [Finset.mem_union,not_or]
        exact ⟨hr,hr'⟩
      | use r =>
        obtain ⟨hr,rfl⟩ := guarded_eq_some.mp hdeed
        exact if_pos (Finset.mem_union_left _ hr)
      | release r =>
        obtain ⟨⟨hr,hfree⟩,rfl⟩ := guarded_eq_some.mp hdeed
        have hr' : r ∉ besides := fun h => (hapart r h).2 (List.mem_cons_self ..)
        have herase : (held ∪ besides).erase r = held.erase r ∪ besides := by
          rw [Finset.erase_union_distrib,Finset.erase_eq_of_notMem hr']
        rw [← herase]
        refine if_pos ⟨Finset.mem_union_left _ hr,fun q hq hneeds => ?_⟩
        obtain hq | hq := Finset.mem_union.mp hq
        · exact hfree q hq hneeds
        · exact hground q hq r hneeds (List.mem_cons_self ..)
    rw [run_deed hstep,hlater]

end Inventory

/-- Using what is held changes nothing. -/
theorem OnlyUses.run {P : ρ → Prop} (h : OnlyUses P log) (hheld : ∀ r, P r → r ∈ held) :
    (inventory needs).run log held = some held := by
  induction log with
  | nil => rfl
  | cons deed log ih =>
    obtain ⟨r,hr,rfl⟩ := h _ (List.mem_cons_self ..)
    have hstep : Deed.perform needs held (.use r) = some held := if_pos (hheld r hr)
    rw [Inventory.run_deed hstep]
    exact ih fun deed hdeed => h deed (List.mem_cons_of_mem _ hdeed)

end NetLab
