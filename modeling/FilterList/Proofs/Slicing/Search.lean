import FilterList.Proofs.Slicing.Scan
import FilterList.Proofs.Text.Unescaped
set_option autoImplicit false

/-!
# What stands at the offsets that are found

A search gives an offset and says nothing about the text there.  Two searches are described here by
what the slices at their offsets hold.  The one for a closing parenthesis counts brackets in one
flat scan; what it finds ends balanced text in parentheses, as the grammar of balanced text has it.
The one for a bare character skips escapes on its way forwards; what it finds is unescaped when the
backslashes before it are counted backwards.
-/

namespace FilterList.Text

/-! ## Closing parentheses -/

/-- A closing parenthesis can be asked for wherever a character begins or the text ends. -/
theorem exists_groupEnd_eq_ok_iff {s : Text} {start : Nat} :
    (∃ found, groupEnd s start = .ok found) ↔
      ∃ before after, s = before ++ after ∧ byteLength before = start := by
  constructor
  · intro h
    obtain ⟨found, hfound⟩ := h
    cases hsplit : splitAtByte? start s with
    | none =>
      rw [groupEnd, splitAtByte, hsplit] at hfound
      cases hfound
    | some parts => exact ⟨parts.1, parts.2, splitAtByte?_eq_some hsplit⟩
  · intro h
    obtain ⟨before, after, hs, hstart⟩ := h
    exact ⟨_, groupEnd_append hs hstart.symm⟩

theorem byteLength_parenthesized (content : Text) :
    byteLength ('(' :: content ++ [')']) = byteLength content + 2 := by
  have hopen : '('.utf8Size = 1 := rfl
  have hclose : ')'.utf8Size = 1 := rfl
  rw [byteLength_append, byteLength_cons, byteLength_cons, byteLength_nil, hopen, hclose]
  omega

/-- A group closes at an offset exactly if balanced text in parentheses stands up to there. -/
theorem groupEnd_eq_some_iff {s : Text} {start stop : Nat} :
    groupEnd s start = .ok (some stop) ↔
      ∃ content, Balanced content ∧
        slice s start (stop + 1) = .ok ('(' :: content ++ [')']) := by
  constructor
  · intro h
    obtain ⟨before, after, hs, hstart⟩ := exists_groupEnd_eq_ok_iff.mp ⟨some stop, h⟩
    rw [groupEnd_append hs hstart.symm, Except.ok.injEq, Option.map_eq_some_iff] at h
    obtain ⟨⟨content, rest⟩, hgroup, hstop : start + 1 + byteLength content = stop⟩ := h
    obtain ⟨rfl, hcontent⟩ := group?_eq_some_iff.mp hgroup
    have hlength : stop + 1 = byteLength (before ++ ('(' :: content ++ [')'])) := by
      rw [byteLength_append, byteLength_parenthesized, hstart, ← hstop]
      omega
    exact ⟨content, hcontent, slice_of_eq before rest (by simp [hs]) hstart.symm hlength⟩
  · intro h
    obtain ⟨content, hcontent, hslice⟩ := h
    obtain ⟨before, rest, hs, hstart, hstop⟩ := slice_eq_ok_iff.mp hslice
    have hgroup : group? ('(' :: content ++ ')' :: rest) = some (content, rest) :=
      group?_eq_some_iff.mpr ⟨rfl, hcontent⟩
    have htext : s = before ++ ('(' :: content ++ ')' :: rest) := by simp [hs]
    have hlength : start + 1 + byteLength content = stop := by
      rw [byteLength_append, byteLength_parenthesized, hstart] at hstop
      omega
    rw [groupEnd_append htext hstart.symm, hgroup, ← hlength]
    rfl

/-- What stands behind the closing parenthesis does not matter. -/
theorem groupEnd_congr {s t : Text} {start stop : Nat}
    (h : sliceTo t (stop + 1) = sliceTo s (stop + 1)) :
    groupEnd t start = .ok (some stop) ↔ groupEnd s start = .ok (some stop) := by
  rw [groupEnd_eq_some_iff, groupEnd_eq_some_iff]
  simp only [slice, h]

/-- Wherever a character begins or the text ends, the search for a closing parenthesis is answered.
The answer is an offset exactly if the text up to and with the character there is balanced text in
parentheses, and it is the same in every text that agrees up to there. -/
theorem groupEnd_finds_balanced (before after : Text) :
    ∃ found, groupEnd (before ++ after) (byteLength before) = .ok found ∧
      ∀ stop,
        (found = some stop ↔
          ∃ content, Balanced content ∧
            slice (before ++ after) (byteLength before) (stop + 1) =
              .ok ('(' :: content ++ [')'])) ∧
        ∀ t, sliceTo t (stop + 1) = sliceTo (before ++ after) (stop + 1) →
          (groupEnd t (byteLength before) = .ok (some stop) ↔ found = some stop) := by
  obtain ⟨found, hfound⟩ := exists_groupEnd_eq_ok_iff.mpr ⟨before, after, rfl, rfl⟩
  refine ⟨found, hfound, fun stop => ?_⟩
  have hanswer : groupEnd (before ++ after) (byteLength before) = .ok (some stop) ↔
      found = some stop := by
    rw [hfound, Except.ok.injEq]
  constructor
  · rw [← hanswer, groupEnd_eq_some_iff]
  · intro t ht
    rw [← hanswer, groupEnd_congr ht]

/-- Of the parentheses in the group one is quoted, one is escaped and one closes an inner group;
behind the group stand a parenthesis in the one text and an open quotation in the other. -/
theorem groupEnd_finds_balanced_hidden :
    groupEnd "é(\")\"\\)(b)))".toList 2 = .ok (some 11) ∧
      groupEnd "é(\")\"\\)(b))\"".toList 2 = .ok (some 11) := by
  obtain ⟨found, hfound, hspec⟩ := groupEnd_finds_balanced ['é'] "(\")\"\\)(b)))".toList
  obtain ⟨hstop, hsame⟩ := hspec 11
  have hbalanced : Balanced "\")\"\\)(b)".toList := balanced_iff.mpr (by decide)
  have hslice :
      slice (['é'] ++ "(\")\"\\)(b)))".toList) 2 12 = .ok "(\")\"\\)(b))".toList := by decide
  have hanswer : found = some 11 := hstop.mpr ⟨_, hbalanced, hslice⟩
  have hother : sliceTo "é(\")\"\\)(b))\"".toList 12 =
      sliceTo (['é'] ++ "(\")\"\\)(b)))".toList) 12 := by decide
  rw [hanswer] at hfound
  exact ⟨hfound, (hsame _ hother).mpr hanswer⟩

/-! ## Bare characters

In a text without quotes every unescaped character but a backslash is bare, so that the two
searches pass the same texts. -/

/-- Without quotes, the scan for a bare target passes exactly what has none unescaped. -/
theorem pass_avoiding_iff_allEscaped {target : Char} (ht : target ≠ '\\') {s : Text}
    (hs : ∀ c ∈ s, isQuote c = false) :
    pass (avoiding target) () none s = some ((), none) ↔ AllEscaped target s := by
  induction s using escapeInduction with
  | nil => simp [allEscaped_of_not_mem]
  | lone =>
    rw [pass_backslash]
    exact iff_of_true rfl (allEscaped_of_not_mem (by simpa using ht))
  | escape c s ih =>
    rw [pass_escape, allEscaped_escape_iff ht]
    exact ih fun d hd => hs d (by simp [hd])
  | char c s hc ih =>
    rw [List.forall_mem_cons] at hs
    have hbare : Quotation.bare none c = true := by simp [Quotation.bare, hs.1, hc]
    rw [pass_cons hc, advance, if_pos hbare, allEscaped_cons_iff hc, ← ih hs.2]
    by_cases hct : c = target
    · simp [avoiding, hct]
    · simp [avoiding, hct]

/-- Without quotes, both cuts are made at the same place. -/
theorem cutBare_eq_cutUnescaped {target : Char} (ht : target ≠ '\\') {s : Text}
    (hs : ∀ c ∈ s, isQuote c = false) : cutBare target s = cutUnescaped target s := by
  rcases allEscaped_or_exists_cut target s with hall | ⟨u, v, rfl, hu, he⟩
  · have hpass := (pass_avoiding_iff_allEscaped ht hs).mpr hall
    rw [cutBare_eq_none_iff.mpr ⟨none, hpass⟩, cutUnescaped_of_allEscaped hall]
  · rw [List.forall_mem_append, List.forall_mem_cons] at hs
    obtain ⟨hquotes, htarget, -⟩ := hs
    have hbare : Quotation.bare none target = true := by simp [Quotation.bare, htarget, ht]
    have hpass := (pass_avoiding_iff_allEscaped ht hquotes).mpr hu
    rw [cutUnescaped_append_cons hu he, cutBare_eq_some_iff hbare]
    exact ⟨rfl, hpass, he⟩

/-- At the offset of a bare target stands the target, and looking back from there it is not escaped.
In a text without quotes the first bare target is the first one that is not escaped. -/
theorem cutBare_agrees_with_looking_back {target : Char} (ht : target ≠ '\\') (s : Text) :
    (∀ cut, cutBare target s = some cut →
      sliceFrom s cut.offset = .ok (target :: cut.after) ∧ escapedAt s cut.offset = .ok false) ∧
    ((∀ c ∈ s, isQuote c = false) → cutBare target s = cutUnescaped target s) := by
  constructor
  · intro cut hcut
    obtain ⟨-, hs, -, heven⟩ := cutBare_eq_some hcut
    rw [Cut.offset]
    constructor
    · exact sliceFrom_of_eq hs rfl
    · rw [hs, escapedAt_append, heven]
  · exact cutBare_eq_cutUnescaped ht

/-- Of the braces in the first text one is escaped and one is quoted, and the third one stands
behind an escaped backslash; in the second text, nothing is quoted. -/
theorem cutBare_agrees_with_looking_back_braces :
    sliceFrom "é\\\x7b\"\x7b\"\\\\\x7b;".toList 9 = .ok ['{', ';'] ∧
      escapedAt "é\\\x7b\"\x7b\"\\\\\x7b;".toList 9 = .ok false ∧
        cutBare '{' "é\\\x7b\\\\\x7b;".toList = cutUnescaped '{' "é\\\x7b\\\\\x7b;".toList := by
  have hne : '{' ≠ '\\' := by decide
  have hcut : cutBare '{' "é\\\x7b\"\x7b\"\\\\\x7b;".toList =
      some ⟨"é\\\x7b\"\x7b\"\\\\".toList, [';']⟩ := by decide
  have hquotes : "é\\\x7b\\\\\x7b;".toList.any isQuote = false := by decide
  obtain ⟨hslice, hescaped⟩ := (cutBare_agrees_with_looking_back hne _).1 _ hcut
  refine ⟨hslice, hescaped, (cutBare_agrees_with_looking_back hne _).2 fun c hc => ?_⟩
  exact Bool.eq_false_iff.mpr (List.any_eq_false.mp hquotes c hc)

end FilterList.Text
