import Mathlib

/-! Texts that begin with a tag, a separator after it. The tag can be read off such a text if no
other tag goes on with the separator. -/
namespace NetLab

variable {α : Type*}

def tagged (sep tag text : List α) : List α := tag ++ sep ++ text

/-- The separator does not begin again within itself. -/
def Unbordered (sep : List α) : Prop := ∀ k, 0 < k → k < sep.length → ¬ sep.drop k <+: sep

/-- One tag is not the beginning of the other with a separator behind it. -/
def TagsApart (sep tag tag' : List α) : Prop := ¬ tag ++ sep <+: tag' ∧ ¬ tag' ++ sep <+: tag

instance [DecidableEq α] (sep tag tag' : List α) : Decidable (TagsApart sep tag tag') :=
  inferInstanceAs (Decidable (¬ _ ∧ ¬ _))

variable {sep tag tag' text text' : List α}

theorem TagsApart.symm (h : TagsApart sep tag tag') : TagsApart sep tag' tag := ⟨h.2,h.1⟩

/-- The longer of two tags of one text goes on with the separator. -/
theorem tag_eq_or_begins (hsep : Unbordered sep) (h : tagged sep tag text = tagged sep tag' text')
    (hle : tag.length ≤ tag'.length) : tag = tag' ∨ tag ++ sep <+: tag' := by
  have hwhole : tag ++ (sep ++ text) = tag' ++ (sep ++ text') := by
    simpa [tagged,List.append_assoc] using h
  obtain ⟨more,rfl⟩ : tag <+: tag' :=
    List.prefix_of_prefix_length_le (List.prefix_append _ _)
      (by rw [hwhole]; exact List.prefix_append _ _) hle
  rw [List.append_assoc,List.append_right_inj] at hwhole
  by_cases hempty : more = []
  · exact Or.inl (by rw [hempty,List.append_nil])
  right
  rw [List.prefix_append_right_inj]
  by_contra hnot
  have hpos : 0 < more.length := List.length_pos_iff.mpr hempty
  have hmore : more.length < sep.length := by
    by_contra hlong
    exact hnot (List.prefix_of_prefix_length_le (List.prefix_append _ _)
      (by rw [hwhole]; exact List.prefix_append _ _) (not_lt.mp hlong))
  -- The rest of the first separator stands at the place of the second one.
  refine hsep more.length hpos hmore ?_
  have hdrop : sep.drop more.length ++ text = sep ++ text' := by
    have hd := congrArg (List.drop more.length) hwhole
    rwa [List.drop_append_of_le_length (le_of_lt hmore),List.drop_left] at hd
  refine List.prefix_of_prefix_length_le (List.prefix_append _ text) ?_ (by simp)
  rw [hdrop]
  exact List.prefix_append _ _

/-- A text with two tags that are apart has one tag. -/
theorem tagged_injective (hsep : Unbordered sep) (hapart : TagsApart sep tag tag')
    (h : tagged sep tag text = tagged sep tag' text') : tag = tag' ∧ text = text' := by
  have htag : tag = tag' := by
    rcases le_total tag.length tag'.length with hle | hle
    · exact (tag_eq_or_begins hsep h hle).resolve_right hapart.1
    · exact ((tag_eq_or_begins hsep h.symm hle).resolve_right hapart.2).symm
  subst htag
  exact ⟨rfl,List.append_cancel_left h⟩

/-- If one tag goes on with the separator behind the other, a text can be read both ways. -/
theorem tagged_both (h : tag ++ sep <+: tag') (text' : List α) :
    ∃ more, tag' = tag ++ sep ++ more ∧
      tagged sep tag (tagged sep more text') = tagged sep tag' text' := by
  obtain ⟨more,rfl⟩ := h
  exact ⟨more,rfl,by simp [tagged,List.append_assoc]⟩

end NetLab
