import FilterList.Proofs.Css.Selector.Grammar
set_option autoImplicit false

/-!
# Attribute selectors are read by their grammar
-/

namespace FilterList.Css

open Token Reader

/-! ## Operators, values and flags -/

theorem AttributeOperator.reader_eq_done_iff {s rest : Text} {operator : AttributeOperator} :
    AttributeOperator.reader s = .done operator rest ↔ s = operator.render ++ rest := by
  constructor
  · intro h
    unfold AttributeOperator.reader at h
    split at h
    all_goals cases h
    all_goals rfl
  · intro h
    subst h
    cases operator <;> rfl

theorem AttributeValue.reader_sound {s rest : Text} {value : AttributeValue}
    (h : AttributeValue.reader s = .done value rest) :
    ∃ v, s = v ++ rest ∧ IsValue v value ∧ ((∃ m, value = .identifier m) → EndsName rest) := by
  unfold AttributeValue.reader at h
  rw [either_eq_done_iff, map_eq_done_iff, map_eq_done_iff] at h
  rcases h with ⟨content, hq, rfl⟩ | ⟨-, n, hn, rfl⟩
  · obtain ⟨v, rfl, hv⟩ := quoted_sound s content rest hq
    refine ⟨v, rfl, .string hv, ?_⟩
    intro hm
    obtain ⟨m, hm⟩ := hm
    cases hm
  · obtain ⟨rfl, hname, hends⟩ := name_sound hn
    exact ⟨n, rfl, .identifier hname, fun _ => hends⟩

theorem AttributeValue.reader_complete {v rest : Text} {value : AttributeValue}
    (h : IsValue v value) (hrest : (∃ m, value = .identifier m) → EndsName rest) :
    AttributeValue.reader (v ++ rest) = .done value rest := by
  unfold AttributeValue.reader
  rw [either_eq_done_iff, map_eq_done_iff, map_eq_done_iff]
  cases h with
  | string hv => exact .inl ⟨_, quoted_complete v _ rest hv trivial, rfl⟩
  | identifier hn =>
    refine .inr ⟨?_, v, name_complete hn (hrest ⟨v, rfl⟩), rfl⟩
    obtain ⟨c, m, rfl, hc⟩ := hn.exists_cons
    apply Refuses.map
    apply refuses_quoted
    rcases hc with hc | rfl
    · exact isQuote_of_isNameChar hc
    · rfl

theorem AttributeMatcher.reader_eq_done_iff {s rest : Text} {m : AttributeMatcher} :
    AttributeMatcher.reader s = .done m rest ↔
      ∃ t, s = m.operator.render ++ t ∧
        AttributeValue.reader (skipBlank t) = .done m.value rest := by
  unfold AttributeMatcher.reader
  simp only [bind_eq_done_iff, blank_eq_done_iff, committed_eq_done_iff, expecting_eq_done_iff,
    pure_eq_done_iff, AttributeOperator.reader_eq_done_iff]
  constructor
  · intro h
    obtain ⟨operator, t, rfl, _, _, rfl, value, _, hv, rfl, rfl⟩ := h
    exact ⟨t, rfl, hv⟩
  · intro h
    obtain ⟨t, rfl, hv⟩ := h
    exact ⟨m.operator, t, rfl, (), _, rfl, m.value, rest, hv, rfl, rfl⟩

theorem Attribute.flagsReader_sound {s rest : Text} {m : AttributeMatcher} {flags : Option Text}
    (hs : (∃ n, m.value = .identifier n) → EndsName s)
    (h : Attribute.flagsReader (some m) s = .done flags rest) :
    ∃ f w, s = f ++ w ++ rest ∧ IsFlags m.value f flags ∧ IsGap w := by
  unfold Attribute.flagsReader at h
  simp only [bind_eq_done_iff, blank_eq_done_iff, attempt_eq_done_iff] at h
  obtain ⟨_, _, rfl, h⟩ := h
  obtain ⟨w, hw, hgap⟩ := exists_gap_append_skipBlank s
  rcases h with ⟨n, rfl, hn⟩ | ⟨rfl, rfl, -⟩
  · obtain ⟨hskip, hname, -⟩ := name_sound hn
    rw [hskip] at hw
    refine ⟨w ++ n, [], by simp [hw], .present hgap ?_ hname, .nil⟩
    -- A name takes all the name characters it finds, so flags cannot follow it directly.
    intro hid hnil
    subst hnil
    have hspan := hs hid
    rw [hw, List.nil_append, EndsName, ← hskip, (name_eq_done_iff.mp hn).1] at hspan
    exact hname.2 (congrArg Prod.fst hspan)
  · exact ⟨[], w, hw, .absent, hgap⟩

theorem Attribute.reader_sound : Sound IsAttribute Attribute.reader := by
  intro s a rest h
  unfold Attribute.reader at h
  simp only [bind_eq_done_iff, blank_eq_done_iff, expecting_eq_done_iff, attempt_eq_done_iff,
    char_eq_done_iff, pure_eq_done_iff] at h
  obtain ⟨_, _, rfl, n, s₁, hn, _, _, rfl, matcher, s₂, hm, flags, s₃, hf, _, _, rfl, _, s₄, hclose,
    rfl, rfl⟩ := h
  obtain ⟨w, hw, hgap⟩ := exists_gap_append_skipBlank s
  obtain ⟨w', hw', hgap'⟩ := exists_gap_append_skipBlank s₁
  obtain ⟨w₂, hw₂, hgap₂⟩ := exists_gap_append_skipBlank s₃
  obtain ⟨hs, hname, -⟩ := name_sound hn
  rcases hm with ⟨m, rfl, hm⟩ | ⟨rfl, rfl, -⟩
  · rw [AttributeMatcher.reader_eq_done_iff] at hm
    obtain ⟨t, ht, hvalue⟩ := hm
    obtain ⟨w₁, hw₁, hgap₁⟩ := exists_gap_append_skipBlank t
    obtain ⟨v, hv, hval, hends⟩ := AttributeValue.reader_sound hvalue
    obtain ⟨f, w₃, rfl, hflags, hgap₃⟩ := Attribute.flagsReader_sound hends hf
    refine ⟨w ++ n ++ w' ++ m.operator.render ++ w₁ ++ v ++ f ++ (w₃ ++ w₂) ++ [']'], ?_,
      .compared hgap hname hgap' hgap₁ hval hflags (hgap₃.append hgap₂)⟩
    rw [hw, hs, hw', ht, hw₁, hv, hw₂, hclose]
    simp
  · unfold Attribute.flagsReader at hf
    rw [pure_eq_done_iff] at hf
    obtain ⟨rfl, rfl⟩ := hf
    refine ⟨w ++ n ++ (w' ++ w₂) ++ [']'], ?_, .named hgap hname (hgap'.append hgap₂)⟩
    rw [hw, hs, hw', hw₂, hclose]
    simp

theorem AttributeOperator.render_append (operator : AttributeOperator) (t : Text) :
    EndsName (operator.render ++ t) ∧ Tight (operator.render ++ t) := by
  cases operator
  all_goals exact ⟨endsName_cons (by decide) (by decide) _, tight_cons (by decide) (by decide) _⟩

theorem IsValue.tight {v : Text} {value : AttributeValue} (h : IsValue v value) (t : Text) :
    Tight (v ++ t) := by
  cases h with
  | identifier hn => exact hn.tight t
  | string hs =>
    obtain ⟨quote, body, hq, rfl, -⟩ := hs
    simp only [Text.isQuote, Bool.or_eq_true, beq_iff_eq] at hq
    rcases hq with rfl | rfl
    all_goals exact tight_cons (by decide) (by decide) _

theorem endsName_close (t : Text) : EndsName (']' :: t) := endsName_cons (by decide) (by decide) t

theorem tight_close (t : Text) : Tight (']' :: t) := tight_cons (by decide) (by decide) t

theorem Attribute.flagsReader_complete {f w : Text} {m : AttributeMatcher} {flags : Option Text}
    (hf : IsFlags m.value f flags) (hw : IsGap w) (rest : Text) :
    ∃ t, Attribute.flagsReader (some m) (f ++ (w ++ ']' :: rest)) = .done flags t ∧
      skipBlank t = ']' :: rest := by
  have hclose := skipBlank_append hw (tight_close rest)
  unfold Attribute.flagsReader
  simp only [bind_eq_done_iff, blank_eq_done_iff, attempt_eq_done_iff]
  cases hf with
  | absent =>
    refine ⟨']' :: rest, ⟨(), ']' :: rest, hclose, .inr ⟨rfl, rfl, ?_⟩⟩, tight_close rest⟩
    exact refuses_name (endsName_close rest)
  | @present w' n hw' _ hn =>
    refine ⟨w ++ ']' :: rest, ⟨(), n ++ (w ++ ']' :: rest), ?_, .inl ⟨n, rfl, ?_⟩⟩, hclose⟩
    · rw [List.append_assoc]
      exact skipBlank_append hw' (hn.tight _)
    · exact name_complete hn ((endsName_close rest).gap_append hw)

theorem IsFlags.endsName {f w : Text} {value : AttributeValue} {flags : Option Text}
    (hf : IsFlags value f flags) (hw : IsGap w) (rest : Text) (hid : ∃ n, value = .identifier n) :
    EndsName (f ++ (w ++ ']' :: rest)) := by
  cases hf with
  | absent => exact (endsName_close rest).gap_append hw
  | present hw' hne _ =>
    rw [List.append_assoc]
    exact endsName_append_of_ne_nil hw' (hne hid) _

theorem Attribute.reader_complete : Complete IsAttribute (fun _ => True) Attribute.reader := by
  intro u a rest h _
  unfold Attribute.reader
  simp only [bind_eq_done_iff, blank_eq_done_iff, expecting_eq_done_iff, attempt_eq_done_iff,
    char_eq_done_iff, pure_eq_done_iff]
  cases h with
  | @named w n w' hw hn hw' =>
    have htext : w ++ n ++ w' ++ [']'] ++ rest = w ++ (n ++ (w' ++ ']' :: rest)) := by simp
    have hfront := skipBlank_append hw (hn.tight (w' ++ ']' :: rest))
    have hname := name_complete hn ((endsName_close rest).gap_append hw')
    have hclose := skipBlank_append hw' (tight_close rest)
    rw [htext]
    refine ⟨(), _, hfront, n, _, hname, (), _, hclose, none, ']' :: rest, .inr ⟨rfl, rfl, ?_⟩,
      none, ']' :: rest, rfl, (), ']' :: rest, tight_close rest, (), rest, rfl, rfl, rfl⟩
    exact ⟨.soft, ']' :: rest, rfl, rfl⟩
  | @compared w n w' w₁ v f w₂ operator value flags hw hn hw' hw₁ hv hf hw₂ =>
    have htext : w ++ n ++ w' ++ operator.render ++ w₁ ++ v ++ f ++ w₂ ++ [']'] ++ rest =
        w ++ (n ++ (w' ++ (operator.render ++ (w₁ ++ (v ++ (f ++ (w₂ ++ ']' :: rest))))))) := by
      simp
    obtain ⟨hopEnds, hopTight⟩ :=
      operator.render_append (w₁ ++ (v ++ (f ++ (w₂ ++ ']' :: rest))))
    obtain ⟨t, hflags, hclose⟩ :=
      Attribute.flagsReader_complete (m := ⟨operator, value⟩) hf hw₂ rest
    have hvalue := AttributeValue.reader_complete hv (hf.endsName hw₂ rest)
    have hmatcher : AttributeMatcher.reader
        (operator.render ++ (w₁ ++ (v ++ (f ++ (w₂ ++ ']' :: rest))))) =
          .done ⟨operator, value⟩ (f ++ (w₂ ++ ']' :: rest)) := by
      rw [AttributeMatcher.reader_eq_done_iff]
      exact ⟨_, rfl, by rw [skipBlank_append hw₁ (hv.tight _)]; exact hvalue⟩
    rw [htext]
    exact ⟨(), _, skipBlank_append hw (hn.tight _), n, _,
      name_complete hn (hopEnds.gap_append hw'), (), _, skipBlank_append hw' hopTight,
      some ⟨operator, value⟩, _, .inl ⟨_, rfl, hmatcher⟩, flags, t, hflags, (), _, hclose, (), rest,
      rfl, rfl, rfl⟩

end FilterList.Css
