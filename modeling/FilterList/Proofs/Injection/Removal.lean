import FilterList.Proofs.Injection.Reading
set_option autoImplicit false

/-!
# What the block of an injection does

An injection that was read has selectors, and a block with declarations unless it removes the
elements.  Nobody counts the declarations of a block for that: a text whose block would come out
empty has not the form of an injection in the first place.

In the AdGuard form a block asks for removal by declarations.  What it does is decided by two
numbers, that of its declarations and that of those which ask for removal, and not by their order.
-/

namespace FilterList.Injection

open Css Text

/-! ## Removal in the AdGuard form -/

namespace AdGuard

/-- The declaration is `remove: true`, in whatever case its property is written and whether it is
important or not. -/
def IsRemoval (d : Declaration) : Prop :=
  d.property.map Char.toLower = "remove".toList ∧ d.value = "true".toList

instance (d : Declaration) : Decidable (IsRemoval d) := inferInstanceAs (Decidable (_ ∧ _))

theorem asksRemoval_eq_decide (d : Declaration) : asksRemoval d = decide (IsRemoval d) := by
  have hlower : removeProperty.map Char.toLower = removeProperty := by decide
  rw [asksRemoval, Bool.eq_iff_iff, Bool.and_eq_true, eqIgnoreCase_iff_of_lower hlower,
    beq_iff_eq, decide_eq_true_iff, IsRemoval, removeProperty, removeValue]

/-- How many declarations of a block are removals. -/
def removals (block : Block) : Nat := block.declarations.countP fun d => decide (IsRemoval d)

theorem countP_asksRemoval (block : Block) :
    block.declarations.countP asksRemoval = removals block := by
  rw [removals, funext asksRemoval_eq_decide]

/-- The effect depends on the two numbers only; in particular the errors do not depend on where
in the block the removals stand. -/
theorem effectOf_eq_iff (text : Text) (block : Block) :
    (effectOf text block = .ok (.style block) ↔ removals block = 0) ∧
      (effectOf text block = .ok .remove ↔
        removals block = 1 ∧ block.declarations.length = 1) ∧
      (effectOf text block = .error (.mixedRemoval text) ↔
        removals block = 1 ∧ 1 < block.declarations.length) ∧
      (effectOf text block = .error (.repeatedRemoval text) ↔ 2 ≤ removals block) := by
  have hcases := effectOf_cases text block
  rw [countP_asksRemoval] at hcases
  rcases hcases with
    ⟨hk, heffect⟩ | ⟨hk, hn, heffect⟩ | ⟨hk, hn, heffect⟩ | ⟨hk, heffect⟩
  · simp [heffect, hk]
  · simp [heffect, hk, hn]
  · have hmany : block.declarations.length ≠ 1 := by omega
    simp [heffect, hk, hn, hmany]
  · have hzero : removals block ≠ 0 := by omega
    have hsingle : removals block ≠ 1 := by omega
    simp [heffect, hk, hzero, hsingle]

/-- Once the parts of a text are read, only its block can still be at fault. -/
theorem parse_eq_of_parts {text : Text} {parts : Parts} {mediaQueries : Option MediaQueryList}
    {selectors : List Selector} {block : Block} (hparts : parts? text = some parts)
    (hmedia : parseMediaQueries parts.mediaQueries = .ok mediaQueries)
    (hselectors : parseSelectors parts.selectors = .ok selectors)
    (hblock : parseContent parts.content = .ok block) :
    AdGuard.parse text = (effectOf text block).map (Injection.mk mediaQueries selectors) := by
  rw [AdGuard.parse, hparts]
  show ofParts text parts = _
  simp only [ofParts, hmedia, hselectors, hblock, bind, Except.bind]
  cases effectOf text block with
  | error e => rfl
  | ok effect => rfl

end AdGuard

/-! ## Every injection that was read -/

theorem WellFormed.selectors_ne_nil {i : Injection} (h : i.WellFormed) : i.selectors ≠ [] := by
  obtain ⟨t, ht⟩ := h.selectors
  obtain ⟨_, first, others, hcons, -⟩ := (Selector.parseList_eq_ok_iff.mp ht).exists_cons
  rw [hcons]
  exact List.cons_ne_nil first others

/-- A text in the AdGuard form is read in that form, whatever else it might be taken for. -/
theorem parse_of_recognizes {text : Text} (h : AdGuard.recognizes text = true) :
    Injection.parse text = (AdGuard.parse text).map some := by
  rw [Injection.parse, if_pos h]

/-- The uBlock Origin form has no media queries. -/
theorem UblockOrigin.mediaQueries_of_parse {text : Text} {i : Injection}
    (h : UblockOrigin.parse text = .ok (some i)) : i.mediaQueries = none := by
  obtain ⟨parts, -, -, hparts⟩ := UblockOrigin.parse_eq_ok_iff.mp h
  exact (UblockOrigin.ofParts_eq_ok_iff.mp hparts).1

theorem recognizes_of_mediaQueries {text : Text} {i : Injection}
    (h : Injection.parse text = .ok (some i)) (hmedia : i.mediaQueries ≠ none) :
    AdGuard.recognizes text = true := by
  unfold Injection.parse at h
  split at h
  · next hadguard => exact hadguard
  · split at h
    · exact absurd (UblockOrigin.mediaQueries_of_parse h) hmedia
    · cases h

/-- An injection that was read has selectors, it has declarations if it is a style, and it has
media queries only in the AdGuard form.  A text in the AdGuard form whose parts can be read is a
style, a removal or one of two errors, as the numbers of declarations and of removals say. -/
theorem parse_classifies (text : Text) :
    (∀ i, Injection.parse text = .ok (some i) →
      i.selectors ≠ [] ∧
        (∀ block, i.effect = .style block → block.declarations ≠ []) ∧
          (i.mediaQueries ≠ none → AdGuard.recognizes text = true)) ∧
      ∀ parts mediaQueries selectors block, AdGuard.parts? text = some parts →
        AdGuard.parseMediaQueries parts.mediaQueries = .ok mediaQueries →
        parseSelectors parts.selectors = .ok selectors →
        parseContent parts.content = .ok block →
        (Injection.parse text = .ok (some ⟨mediaQueries, selectors, .style block⟩) ↔
          AdGuard.removals block = 0) ∧
        (Injection.parse text = .ok (some ⟨mediaQueries, selectors, .remove⟩) ↔
          AdGuard.removals block = 1 ∧ block.declarations.length = 1) ∧
        (Injection.parse text = .error (.mixedRemoval text) ↔
          AdGuard.removals block = 1 ∧ 1 < block.declarations.length) ∧
        (Injection.parse text = .error (.repeatedRemoval text) ↔
          2 ≤ AdGuard.removals block) := by
  constructor
  · intro i h
    have hform := wellFormed_of_parse h
    exact ⟨hform.selectors_ne_nil, fun block hstyle => (hform.block block hstyle).1,
      recognizes_of_mediaQueries h⟩
  · intro parts mediaQueries selectors block hparts hmedia hselectors hblock
    have hform : AdGuard.recognizes text = true := by
      rw [AdGuard.recognizes, hparts]
      rfl
    have hresult : Injection.parse text =
        ((AdGuard.effectOf text block).map (Injection.mk mediaQueries selectors)).map some := by
      rw [parse_of_recognizes hform, AdGuard.parse_eq_of_parts hparts hmedia hselectors hblock]
    obtain ⟨hstyle, hremove, hmixed, hrepeated⟩ := AdGuard.effectOf_eq_iff text block
    rw [hresult, ← hstyle, ← hremove, ← hmixed, ← hrepeated]
    cases AdGuard.effectOf text block with
    | error e => simp [Except.map]
    | ok effect => simp [Except.map]

/-- A removal counts in capitals and with an important flag, and here it is not alone; without it
the same block is a style. -/
theorem parse_classifies_media :
    Injection.parse "@media print \x7b p \x7b a: b; REMOVE: true !important \x7d \x7d".toList =
        .error (.mixedRemoval
          "@media print \x7b p \x7b a: b; REMOVE: true !important \x7d \x7d".toList) ∧
      AdGuard.recognizes "@media print \x7b p \x7b a: b \x7d \x7d".toList = true ∧
      ∃ i block, Injection.parse "@media print \x7b p \x7b a: b \x7d \x7d".toList = .ok (some i) ∧
        i.mediaQueries = some ⟨[⟨[.keyword "print".toList]⟩]⟩ ∧ i.selectors ≠ [] ∧
          i.effect = .style block ∧ block.declarations ≠ [] := by
  constructor
  · obtain ⟨-, -, hmixed, -⟩ :=
      (parse_classifies "@media print \x7b p \x7b a: b; REMOVE: true !important \x7d \x7d".toList).2
        ⟨some "print".toList, ['p'], " a: b; REMOVE: true !important ".toList⟩
        (some ⟨[⟨[.keyword "print".toList]⟩]⟩) [⟨[.type ['p']]⟩]
        ⟨[.ofValue ['a'] ['b'], ⟨"REMOVE".toList, "true".toList, true⟩]⟩
        (by decide +kernel) (by decide +kernel) (by decide +kernel) (by decide +kernel)
    exact hmixed.mpr (by decide)
  · have hread : Injection.parse "@media print \x7b p \x7b a: b \x7d \x7d".toList =
        .ok (some ⟨some ⟨[⟨[.keyword "print".toList]⟩]⟩, [⟨[.type ['p']]⟩],
          .style ⟨[.ofValue ['a'] ['b']]⟩⟩) := by decide +kernel
    obtain ⟨hselectors, hblock, hform⟩ := (parse_classifies _).1 _ hread
    exact ⟨hform (by decide), _, _, hread, rfl, hselectors, rfl, hblock _ rfl⟩

end FilterList.Injection
