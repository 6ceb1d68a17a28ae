import FilterList.Proofs.Injection.Reading
set_option autoImplicit false

/-!
# Writing injections in the uBlock Origin form

The form puts the mark right behind the selectors, and reading it back looks for the last mark
outside brackets.  Three scans have to agree on the brackets of a text that was written: the one
that looks for the mark, the one that closes its group and the one that reads a value.  They do
not agree on every text that was read, so an injection is read back exactly if the brackets of its
selectors close, the round brackets of its declarations match, and nothing is trimmed.
-/

namespace FilterList.Injection.UblockOrigin

open Css Text

/-! ## Looking for the last mark -/

/-- The same cut in the text with `s` put in front. -/
def MarkCut.prepend (s : Text) (cut : MarkCut) : MarkCut := { cut with before := s ++ cut.before }

@[simp] theorem MarkCut.prepend_nil (cut : MarkCut) : cut.prepend [] = cut := rfl

@[simp] theorem MarkCut.shift_prepend (c : Char) (s : Text) (cut : MarkCut) :
    (cut.prepend s).shift c = cut.prepend (c :: s) := rfl

/-- The depth of brackets as the search for marks counts it; nothing is refused. -/
def depthStep (depth : Nat) (c : Char) : Option Nat := some (depthAfter depth c)

/-- The depth of brackets, where a bracket that closes nothing is refused. -/
def nestStep (depth : Nat) (c : Char) : Option Nat :=
  if c = '(' ∨ c = '[' then some (depth + 1)
  else if c = ')' ∨ c = ']' then
    match depth with
    | 0 => none
    | d + 1 => some d
  else some depth

/-- What one bare character can do to the depth of brackets. -/
theorem nestStep_eq_some_iff {depth depth' : Nat} {c : Char} :
    nestStep depth c = some depth' ↔
      ((c = '(' ∨ c = '[') ∧ depth' = depth + 1) ∨ ((c = ')' ∨ c = ']') ∧ depth = depth' + 1) ∨
        (c ∉ ['(', '[', ')', ']'] ∧ depth' = depth) := by
  unfold nestStep
  by_cases hopen : c = '(' ∨ c = '['
  · rcases hopen with rfl | rfl
    all_goals simp [eq_comm]
  by_cases hclose : c = ')' ∨ c = ']'
  · rcases hclose with rfl | rfl
    all_goals cases depth <;> simp [eq_comm]
  · have hsign : c ∉ ['(', '[', ')', ']'] := by
      simpa [not_or, and_assoc] using And.intro hopen hclose
    simp [hopen, hclose, hsign, eq_comm]

theorem depthAfter_of_nestStep {depth depth' : Nat} {c : Char}
    (h : nestStep depth c = some depth') : depthAfter (depth + 1) c = depth' + 1 := by
  rcases nestStep_eq_some_iff.mp h with ⟨rfl | rfl, rfl⟩ | ⟨rfl | rfl, rfl⟩ | ⟨hc, rfl⟩
  · rfl
  · rfl
  · rfl
  · rfl
  · simp only [List.mem_cons, not_or] at hc
    simp [depthAfter, hc]

/-- No mark is found inside brackets. -/
theorem cutLastMark_nested {depth depth' : Nat} {q q' : Quotation} {s : Text}
    (h : pass nestStep depth q s = some (depth', q')) (heven : endsEscaping s = false) (t : Text) :
    cutLastMark (depth + 1) q (s ++ t) =
      (cutLastMark (depth' + 1) q' t).map (MarkCut.prepend s) := by
  induction s using escapeInduction generalizing depth q with
  | nil =>
    rw [pass_nil] at h
    cases h
    rw [List.nil_append]
    exact Option.map_id'.symm
  | lone => simp [endsEscaping, oddEscapes_cons] at heven
  | escape c s ih =>
    rw [pass_escape] at h
    rw [endsEscaping_escape] at heven
    rw [List.cons_append, List.cons_append, cutLastMark_escape, ih h heven, Option.map_map]
    rfl
  | char c s hc ih =>
    rw [pass_cons_eq_some_iff hc] at h
    rw [endsEscaping_cons_of_ne hc] at heven
    rw [List.cons_append]
    rcases h with ⟨hb, depth₁, hstep, hs⟩ | ⟨hb, hs⟩
    · rw [cutLastMark_bare hb, depthAfter_of_nestStep hstep, ih hs heven,
        if_neg (Nat.succ_ne_zero depth), Option.or_none, Option.map_map]
      rfl
    · rw [cutLastMark_hidden hc hb, ih hs heven, Option.map_map]
      rfl

/-- A mark that is found behind a piece is found in the whole. -/
theorem cutLastMark_append {depth depth' : Nat} {q q' : Quotation} {s : Text}
    (h : pass depthStep depth q s = some (depth', q')) (heven : endsEscaping s = false) {t : Text}
    {cut : MarkCut} (hcut : cutLastMark depth' q' t = some cut) :
    cutLastMark depth q (s ++ t) = some (cut.prepend s) := by
  induction s using escapeInduction generalizing depth q with
  | nil =>
    rw [pass_nil] at h
    cases h
    exact hcut
  | lone => simp [endsEscaping, oddEscapes_cons] at heven
  | escape c s ih =>
    rw [pass_escape] at h
    rw [endsEscaping_escape] at heven
    rw [List.cons_append, List.cons_append, cutLastMark_escape, ih h heven]
    rfl
  | char c s hc ih =>
    rw [pass_cons_eq_some_iff hc] at h
    rw [endsEscaping_cons_of_ne hc] at heven
    rw [List.cons_append]
    rcases h with ⟨hb, depth₁, hstep, hs⟩ | ⟨hb, hs⟩
    · cases hstep
      rw [cutLastMark_bare hb, ih hs heven]
      rfl
    · rw [cutLastMark_hidden hc hb, ih hs heven]
      rfl

theorem Mark.eq_colon_of_read? {c : Char} {s : Text} {r : Mark × Text}
    (h : Mark.read? (c :: s) = some r) : c = ':' := by
  obtain ⟨mark, group⟩ := r
  obtain ⟨htext, -⟩ := Mark.read?_eq_some h
  cases mark with
  | style => exact (List.cons.inj htext).1
  | remove => exact (List.cons.inj htext).1

/-- If no mark is found behind a piece, a mark of the whole begins in the piece. -/
theorem exists_colon_of_cutLastMark {depth depth' : Nat} {q q' : Quotation} {s : Text}
    (h : pass depthStep depth q s = some (depth', q')) (heven : endsEscaping s = false) {t : Text}
    (hnone : cutLastMark depth' q' t = none) {cut : MarkCut}
    (hcut : cutLastMark depth q (s ++ t) = some cut) : ∃ v, s = cut.before ++ ':' :: v := by
  induction s using escapeInduction generalizing depth q cut with
  | nil =>
    rw [pass_nil] at h
    cases h
    rw [List.nil_append, hnone] at hcut
    cases hcut
  | lone => simp [endsEscaping, oddEscapes_cons] at heven
  | escape c s ih =>
    rw [pass_escape] at h
    rw [endsEscaping_escape] at heven
    rw [List.cons_append, List.cons_append, cutLastMark_escape, Option.map_eq_some_iff] at hcut
    obtain ⟨inner, hinner, rfl⟩ := hcut
    obtain ⟨v, rfl⟩ := ih h heven hinner
    exact ⟨v, rfl⟩
  | char c s hc ih =>
    rw [pass_cons_eq_some_iff hc] at h
    rw [endsEscaping_cons_of_ne hc] at heven
    rw [List.cons_append] at hcut
    rcases h with ⟨hb, depth₁, hstep, hs⟩ | ⟨hb, hs⟩
    · cases hstep
      rw [cutLastMark_bare hb, Option.or_eq_some_iff, Option.map_eq_some_iff] at hcut
      rcases hcut with ⟨inner, hinner, rfl⟩ | ⟨-, hhere⟩
      · obtain ⟨v, rfl⟩ := ih hs heven hinner
        exact ⟨v, rfl⟩
      · split at hhere
        · rw [Option.map_eq_some_iff] at hhere
          obtain ⟨r, hread, rfl⟩ := hhere
          rw [← Mark.eq_colon_of_read? hread]
          exact ⟨s, rfl⟩
        · cases hhere
    · rw [cutLastMark_hidden hc hb, Option.map_eq_some_iff] at hcut
      obtain ⟨inner, hinner, rfl⟩ := hcut
      obtain ⟨v, rfl⟩ := ih hs heven hinner
      exact ⟨v, rfl⟩

/-! ## Text in which brackets nest -/

/-- The character is neither quote nor backslash nor bracket. -/
def isPlain (c : Char) : Bool := !(['"', '\'', '\\', '(', ')', '[', ']'].contains c)

/-- The brackets of the text nest, and it leaves nothing open behind it. -/
structure Nested (s : Text) : Prop where
  passes : ∀ depth, pass nestStep depth none s = some (depth, none)
  even : endsEscaping s = false

theorem inert_nestStep {p : Char → Bool}
    (hp : ['"', '\'', '\\', '(', ')', '[', ']'].any p = false) {c : Char}
    (hc : p c = true) : Inert nestStep c := by
  refine inert_of_signs ?_ hp hc
  intro c hmem depth
  simp only [List.mem_cons, List.not_mem_nil, or_false, not_or] at hmem
  obtain ⟨hopen, hclose, hopen', hclose'⟩ := hmem
  simp [nestStep, hopen, hclose, hopen', hclose']

theorem nestStep_of_valueStep {depth depth' : Nat} {c : Char}
    (h : Declaration.valueStep depth c = some depth') (around : Nat) :
    nestStep (depth + around) c = some (depth' + around) := by
  rw [nestStep_eq_some_iff]
  rcases Declaration.valueStep_eq_some_iff.mp h with
    ⟨hopen, rfl⟩ | ⟨hclose, rfl⟩ | ⟨hc, -, rfl⟩
  · exact .inl ⟨hopen, Nat.add_right_comm depth 1 around⟩
  · exact .inr (.inl ⟨hclose, Nat.add_right_comm depth' 1 around⟩)
  · exact .inr (.inr ⟨hc, rfl⟩)

namespace Nested

theorem nil : Nested [] := ⟨fun _ => pass_nil _ _, rfl⟩

theorem append {s t : Text} (hs : Nested s) (ht : Nested t) : Nested (s ++ t) := by
  refine ⟨fun depth => ?_, by rw [endsEscaping_append hs.even, ht.even]⟩
  rw [pass_append hs.even, hs.passes]
  exact ht.passes depth

theorem flatten {pieces : List Text} (h : ∀ s ∈ pieces, Nested s) : Nested pieces.flatten := by
  induction pieces with
  | nil => exact nil
  | cons s pieces ih => exact (h s (by simp)).append (ih fun t ht => h t (by simp [ht]))

theorem of_plain {s : Text} (hs : s.all isPlain = true) : Nested s := by
  have hinert : ∀ c ∈ s, Inert nestStep c := by
    intro c hc
    exact inert_nestStep (by decide) (List.all_eq_true.mp hs c hc)
  exact ⟨fun depth => pass_of_inert hinert depth Quotation.proper_none,
    endsEscaping_of_inert hinert⟩

end Nested

/-- A declaration that was read nests, its semicolon included, even if that is escaped. -/
theorem nested_render {d : Declaration} (hd : d.WellFormed) : Nested d.render := by
  have hname : Nested d.property := by
    refine ⟨fun depth => ?_, hd.name.1.endsEscaping⟩
    exact hd.name.1.pass (fun c hc => inert_nestStep (by decide) hc) depth
  have hvalue : Nested (d.renderValue ++ [';']) := by
    refine ⟨fun depth => ?_, endsEscaping_concat_of_ne (by decide) _⟩
    have hsemicolon : ∀ c ∈ [';'], Inert nestStep c := by
      intro c hc
      exact inert_nestStep (p := (· == ';')) (by decide) (by simpa using hc)
    have hpass := pass_of_simulation nestStep (· + depth)
      (fun _ _ _ h => nestStep_of_valueStep h depth) (Declaration.pass_renderValue hd)
    rw [pass_append_inert hsemicolon depth Quotation.proper_none]
    simpa using hpass
  rw [Declaration.render_eq]
  exact hname.append ((Nested.of_plain (s := [':']) (by decide)).append hvalue)

theorem nested_renderDeclarations {b : Block} (hwf : ∀ d ∈ b.declarations, d.WellFormed) :
    Nested b.renderDeclarations := by
  obtain ⟨ds⟩ := b
  cases ds with
  | nil => exact Nested.nil
  | cons d ds =>
    rw [Block.renderDeclarations, List.map_cons, Reader.intercalate_singleton_cons]
    refine (nested_render (hwf d (by simp))).append (Nested.flatten ?_)
    intro s hs
    simp only [List.mem_map] at hs
    obtain ⟨_, ⟨e, he, rfl⟩, rfl⟩ := hs
    exact (Nested.of_plain (s := [' ']) (by decide)).append (nested_render (hwf e (by simp [he])))

/-! ## The mark that is written -/

theorem Mark.read?_render (mark : Mark) (s : Text) :
    Mark.read? (mark.render ++ '(' :: s) = some (mark, '(' :: s) := by
  cases mark with
  | style => rfl
  | remove => rfl

/-- A mark is a colon and a word. -/
theorem Mark.exists_word (mark : Mark) :
    ∃ w, mark.render = ':' :: w ∧ ':' ∉ w ∧ w.all isPlain = true ∧
      pass depthStep 0 none (w ++ ['(']) = some (1, none) := by
  cases mark with
  | style => exact ⟨"style".toList, by decide⟩
  | remove => exact ⟨"remove".toList, by decide⟩

/-- A mark with its group, as it is written. -/
def marked (mark : Mark) (content : Text) : Text := mark.render ++ '(' :: content ++ [')']

theorem cutLastMark_close (depth : Nat) : cutLastMark (depth + 1) none [')'] = none := by
  rw [cutLastMark_bare rfl]
  rfl

theorem cutLastMark_content {content : Text} (h : Nested content) (depth : Nat) :
    cutLastMark (depth + 1) none (content ++ [')']) = none := by
  rw [cutLastMark_nested (h.passes depth) h.even, cutLastMark_close]
  rfl

/-- Inside brackets, the mark that is written is not found. -/
theorem cutLastMark_marked_nested {content : Text} (h : Nested content) (mark : Mark)
    (depth : Nat) : cutLastMark (depth + 1) none (marked mark content) = none := by
  obtain ⟨w, hrender, -, hw, -⟩ := mark.exists_word
  have hplain : Nested mark.render := by
    refine Nested.of_plain ?_
    rw [hrender, List.all_cons, hw]
    rfl
  have hopen : pass nestStep depth none (mark.render ++ ['(']) = some (depth + 1, none) := by
    rw [pass_append hplain.even, hplain.passes]
    rfl
  have heven : endsEscaping (mark.render ++ ['(']) = false :=
    endsEscaping_concat_of_ne (by decide) _
  have htext : marked mark content = mark.render ++ ['('] ++ (content ++ [')']) := by
    simp [marked]
  rw [htext, cutLastMark_nested hopen heven, cutLastMark_content h]
  rfl

/-- Outside brackets, the mark that is written is found. -/
theorem cutLastMark_marked {content : Text} (h : Nested content) (mark : Mark) :
    cutLastMark 0 none (marked mark content) = some ⟨[], mark, '(' :: content ++ [')']⟩ := by
  obtain ⟨w, hrender, hcolon, -, hopen⟩ := mark.exists_word
  have htext : marked mark content = ':' :: (w ++ ['('] ++ (content ++ [')'])) := by
    simp [marked, hrender]
  have hword : cutLastMark 0 none (w ++ ['('] ++ (content ++ [')'])) = none := by
    cases hcut : cutLastMark 0 none (w ++ ['('] ++ (content ++ [')'])) with
    | none => rfl
    | some cut =>
      obtain ⟨v, hv⟩ := exists_colon_of_cutLastMark hopen (endsEscaping_concat_of_ne (by decide) w)
        (cutLastMark_content h 0) hcut
      have hmem : ':' ∈ w ++ ['('] := by
        rw [hv]
        simp
      simp [hcolon] at hmem
  have hread : Mark.read? (marked mark content) = some (mark, '(' :: content ++ [')']) := by
    rw [marked, List.append_assoc]
    exact mark.read?_render (content ++ [')'])
  have hdepth : depthAfter 0 ':' = 0 := by decide
  rw [htext, cutLastMark_bare rfl, hdepth, hword, ← htext, hread]
  rfl

/-! ## The rule -/

theorem trim_marked (selectors : Text) (mark : Mark) (content : Text) :
    trim (selectors ++ marked mark content) = trimStart selectors ++ marked mark content := by
  obtain ⟨w, hrender, -⟩ := mark.exists_word
  have hstart : trimStart (selectors ++ marked mark content) =
      trimStart selectors ++ marked mark content := by
    rw [marked, hrender]
    exact trimStart_append_cons rfl _ _
  rw [trim, hstart]
  apply trimEnd_eq_self
  intro c hc
  rw [marked, ← List.append_assoc, List.getLast?_concat] at hc
  cases hc
  rfl

/-- Every bracket that is opened in the text is closed in it, as the search for marks counts; a
bracket that closes nothing is passed over. -/
def ClosesBrackets (s : Text) : Prop := pass depthStep 0 none s = some (0, none)

instance (s : Text) : Decidable (ClosesBrackets s) := inferInstanceAs (Decidable (_ = _))

theorem pass_depthStep_trimStart (s : Text) :
    pass depthStep 0 none (trimStart s) = pass depthStep 0 none s := by
  refine pass_trimStart (fun c hc => inert_of_isWhiteSpace hc fun depth => ?_) 0 s
  have hne : ∀ d, isWhiteSpace d = false → c ≠ d := fun d hd => ne_of_isWhiteSpace hc hd
  simp [depthStep, depthAfter, hne '(' rfl, hne '[' rfl, hne ')' rfl, hne ']' rfl]

/-- The depth in which selectors leave the search for marks. -/
theorem exists_pass_depthStep {s : Text} (h : ClosesQuotations s) :
    ∃ depth, pass depthStep 0 none s = some (depth, none) := by
  cases hpass : pass depthStep 0 none s with
  | none =>
    obtain ⟨_, c, _, hbreak⟩ := breakBare_of_pass_eq_none hpass
    obtain ⟨depth, -, -, -, hrefused⟩ := pass_of_breakBare hbreak
    cases hrefused
  | some r =>
    obtain ⟨depth, q⟩ := r
    have hq := h.eq_none hpass
    exact ⟨depth, by rw [hq]⟩

theorem split_marked_iff {selectors content : Text} (heven : endsEscaping selectors = false)
    (hcloses : ClosesBrackets selectors) (hcontent : Nested content) {mark : Mark}
    {parts : Parts} :
    split (selectors ++ marked mark content) = some parts ↔
      Balanced content ∧ parts = ⟨trim selectors, mark, trim content⟩ := by
  have hcut : cutLastMark 0 none (trim (selectors ++ marked mark content)) =
      some ⟨trimStart selectors, mark, '(' :: content ++ [')']⟩ := by
    rw [ClosesBrackets, ← pass_depthStep_trimStart] at hcloses
    rw [trim_marked, cutLastMark_append hcloses (by rw [endsEscaping_trimStart, heven])
      (cutLastMark_marked hcontent mark), MarkCut.prepend, List.append_nil]
  rw [split_eq_some_iff, hcut]
  constructor
  · intro h
    obtain ⟨_, inner, heq, hgroup, rfl⟩ := h
    cases heq
    obtain ⟨htext, hbalanced⟩ := group?_eq_some_iff.mp hgroup
    have hinner : content = inner := List.append_inj_left' (List.cons.inj htext).2 rfl
    rw [hinner]
    exact ⟨hbalanced, by rw [trim_trimStart]⟩
  · intro h
    obtain ⟨hbalanced, rfl⟩ := h
    exact ⟨_, content, rfl, group?_eq_some_iff.mpr ⟨rfl, hbalanced⟩, by rw [trim_trimStart]⟩

/-- If the brackets of the selectors do not close, the mark that is written is not found, and any
other one is cut off with less than the selectors. -/
theorem count_lt_of_split {selectors content : Text} (heven : endsEscaping selectors = false)
    (hquotes : ClosesQuotations selectors) (hopen : ¬ ClosesBrackets selectors)
    (hcontent : Nested content) {mark : Mark} {parts : Parts}
    (h : split (selectors ++ marked mark content) = some parts) :
    parts.selectors.count ':' < selectors.count ':' := by
  obtain ⟨cut, _, hcut, -, rfl⟩ := split_eq_some_iff.mp h
  obtain ⟨depth, hpass⟩ := exists_pass_depthStep hquotes
  cases depth with
  | zero => exact absurd hpass hopen
  | succ depth =>
    rw [trim_marked] at hcut
    rw [← pass_depthStep_trimStart] at hpass
    obtain ⟨v, hv⟩ := exists_colon_of_cutLastMark hpass (by rw [endsEscaping_trimStart, heven])
      (cutLastMark_marked_nested hcontent mark depth) hcut
    have hcount : (trimStart selectors).count ':' = selectors.count ':' := by
      rw [← count_trim rfl, trim_trimStart, count_trim rfl]
    rw [← hcount, hv, count_trim rfl, List.count_append, List.count_cons_self]
    omega

/-! ## What survives -/

/-- Between parentheses and trimmed, the declarations come out as they are, and no value takes the
semicolon behind it along. -/
def KeepsEffect : Effect → Prop
  | .remove => True
  | .style block =>
    (trim block.renderDeclarations = block.renderDeclarations ∧
      Balanced block.renderDeclarations) ∧ ∀ d ∈ block.declarations, d.escapesEnd = false

instance (s : Text) : Decidable (Balanced s) := decidable_of_iff _ balanced_iff.symm

instance : (effect : Effect) → Decidable (KeepsEffect effect)
  | .remove => isTrue trivial
  | .style block =>
    inferInstanceAs (Decidable ((trim block.renderDeclarations = block.renderDeclarations ∧
      Balanced block.renderDeclarations) ∧ ∀ d ∈ block.declarations, d.escapesEnd = false))

/-- From its written form the injection is read back. -/
structure Restorable (i : Injection) : Prop where
  trimmed : trim (Selector.renderList i.selectors) = Selector.renderList i.selectors
  closes : ClosesBrackets (Selector.renderList i.selectors)
  effect : KeepsEffect i.effect

instance (i : Injection) : Decidable (Restorable i) :=
  decidable_of_iff
    (trim (Selector.renderList i.selectors) = Selector.renderList i.selectors ∧
      ClosesBrackets (Selector.renderList i.selectors) ∧ KeepsEffect i.effect)
    ⟨fun h => ⟨h.1, h.2.1, h.2.2⟩, fun h => ⟨h.1, h.2, h.3⟩⟩

/-! ## The whole form -/

/-- The mark that an effect is written with. -/
def markOf : Effect → Mark
  | .remove => .remove
  | .style _ => .style

/-- What is written between the parentheses for an effect. -/
def contentOf : Effect → Text
  | .remove => []
  | .style block => block.renderDeclarations

theorem renderEffect_eq (effect : Effect) :
    renderEffect effect = marked (markOf effect) (contentOf effect) := by
  cases effect with
  | remove => rfl
  | style block => rfl

theorem nested_contentOf {i : Injection} (hi : i.WellFormed) : Nested (contentOf i.effect) := by
  cases heffect : i.effect with
  | remove => exact Nested.nil
  | style block => exact nested_renderDeclarations (hi.block block heffect).2

/-- What is written between the parentheses for an effect is read as that effect again if it
survives, and never else. -/
theorem effect_iff {i : Injection} (hi : i.WellFormed) :
    Balanced (contentOf i.effect) ∧
        effectOf (markOf i.effect) (trim (contentOf i.effect)) = .ok i.effect ↔
      KeepsEffect i.effect := by
  rw [effectOf_eq_ok_iff]
  cases heffect : i.effect with
  | remove =>
    constructor
    · intro _
      trivial
    · intro _
      exact ⟨Balanced.nil, .inl ⟨rfl, rfl⟩⟩
  | style block =>
    obtain ⟨hne, hwf⟩ := hi.block block heffect
    have hread := Block.parse_renderDeclarations_iff hne hwf (.inl rfl) (.inl rfl)
    rw [List.nil_append, List.append_nil] at hread
    constructor
    · intro h
      obtain ⟨hbalanced, h⟩ := h
      rcases h with ⟨h, -⟩ | ⟨_, -, heq, hparse⟩
      · cases h
      · cases heq
        have htrim := Block.trim_renderDeclarations_of_parse hne hwf hparse
        rw [contentOf, htrim] at hparse
        exact ⟨⟨htrim, hbalanced⟩, hread.mp hparse⟩
    · intro h
      obtain ⟨⟨htrim, hbalanced⟩, heven⟩ := h
      refine ⟨hbalanced, .inr ⟨block, rfl, rfl, ?_⟩⟩
      rw [contentOf, htrim]
      exact hread.mpr heven

theorem isInjection_of_trim {i : Injection} (hi : i.WellFormed)
    (htrim : trim (Selector.renderList i.selectors) = Selector.renderList i.selectors) :
    Parts.isInjection ⟨trim (Selector.renderList i.selectors), markOf i.effect,
      trim (contentOf i.effect)⟩ = true := by
  obtain ⟨t, ht⟩ := hi.selectors
  obtain ⟨c, v, hrender, -⟩ := Selector.exists_renderList_cons ht
  rw [htrim, hrender]
  cases heffect : i.effect with
  | remove => rfl
  | style block =>
    obtain ⟨hne, hwf⟩ := hi.block block heffect
    have hcontent : isBlankContent (trim block.renderDeclarations) = false :=
      List.isEmpty_eq_false_iff.mpr (Block.skipFiller_trim_renderDeclarations hne hwf)
    rw [contentOf, markOf, Parts.isInjection, hcontent]
    rfl

theorem parse_marked_iff {i : Injection} (hi : i.WellFormed) (hm : i.mediaQueries = none) :
    UblockOrigin.parse (Selector.renderList i.selectors ++ renderEffect i.effect) =
      .ok (some i) ↔ Restorable i := by
  obtain ⟨t, ht⟩ := hi.selectors
  obtain ⟨-, hquotes, heven, -, -⟩ := Selector.respelled_of_parseList ht
  have hcontent := nested_contentOf hi
  rw [renderEffect_eq, parse_eq_ok_iff]
  constructor
  · intro h
    obtain ⟨parts, hsplit, -, hof⟩ := h
    obtain ⟨-, hselectors, heffect⟩ := ofParts_eq_ok_iff.mp hof
    have hcloses : ClosesBrackets (Selector.renderList i.selectors) := by
      by_cases hcloses : ClosesBrackets (Selector.renderList i.selectors)
      · exact hcloses
      · -- what was cut off was read as the same selectors, and yet it lacks a colon of theirs
        have hlt := count_lt_of_split heven hquotes hcloses hcontent hsplit
        have hle :=
          (Selector.respelled_of_parseList hselectors).count_le ':' (by decide) (by decide)
          (by decide)
        omega
    obtain ⟨hbalanced, rfl⟩ := (split_marked_iff heven hcloses hcontent).mp hsplit
    exact ⟨(Selector.parseList_trim_iff ht).mp hselectors, hcloses,
      (effect_iff hi).mp ⟨hbalanced, heffect⟩⟩
  · intro h
    obtain ⟨htrim, hcloses, heffect⟩ := h
    obtain ⟨hbalanced, hread⟩ := (effect_iff hi).mpr heffect
    refine ⟨_, (split_marked_iff heven hcloses hcontent).mpr ⟨hbalanced, rfl⟩,
      isInjection_of_trim hi htrim, ofParts_eq_ok_iff.mpr ⟨hm, ?_, hread⟩⟩
    exact (Selector.parseList_trim_iff ht).mpr htrim

theorem getLast?_trim_marked (selectors : Text) (mark : Mark) (content : Text) :
    (trim (selectors ++ marked mark content)).getLast? = some ')' := by
  rw [trim_marked, marked, ← List.append_assoc, List.getLast?_concat]

/-- An injection without media queries that was read, in either form, has a uBlock Origin form, and
is read back from it exactly if it is restorable. -/
theorem exists_render_parse_iff_restorable (raw : Text) (i : Injection)
    (h : Injection.parse raw = .ok (some i)) (hm : i.mediaQueries = none) :
    ∃ t, Injection.render .ublockOrigin i = .ok t ∧
      (Injection.parse t = .ok (some i) ↔ Restorable i) := by
  refine ⟨Selector.renderList i.selectors ++ renderEffect i.effect, ?_, ?_⟩
  · simp [Injection.render, UblockOrigin.render, hm]
  · have hlast : (trim (Selector.renderList i.selectors ++ renderEffect i.effect)).getLast? =
        some ')' := by
      rw [renderEffect_eq]
      exact getLast?_trim_marked _ _ _
    rw [parse_of_parenthesis hlast]
    exact parse_marked_iff (Injection.wellFormed_of_parse h) hm

/-- The value that was read from the first text opens a round bracket and closes a square one, which
leaves the group of the mark open; that of the second text opens nothing. -/
theorem exists_render_parse_iff_restorable_brackets :
    (∃ i t, Injection.parse "a \x7b b: (] \x7d".toList = .ok (some i) ∧
      Injection.render .ublockOrigin i = .ok t ∧ Injection.parse t ≠ .ok (some i)) ∧
    ∃ i t, Injection.parse "a \x7b b: c \x7d".toList = .ok (some i) ∧
      Injection.render .ublockOrigin i = .ok t ∧ Injection.parse t = .ok (some i) := by
  constructor
  · have hread : Injection.parse "a \x7b b: (] \x7d".toList =
        .ok (some ⟨none, [⟨[.type ['a']]⟩], .style ⟨[⟨['b'], ['(', ']'], false⟩]⟩⟩) := by
      decide +kernel
    obtain ⟨t, hrender, hiff⟩ := exists_render_parse_iff_restorable _ _ hread rfl
    refine ⟨_, t, hread, hrender, fun hback => ?_⟩
    exact absurd (hiff.mp hback) (by decide +kernel)
  · have hread : Injection.parse "a \x7b b: c \x7d".toList =
        .ok (some ⟨none, [⟨[.type ['a']]⟩], .style ⟨[⟨['b'], ['c'], false⟩]⟩⟩) := by
      decide +kernel
    obtain ⟨t, hrender, hiff⟩ := exists_render_parse_iff_restorable _ _ hread rfl
    exact ⟨_, t, hread, hrender, hiff.mpr (by decide +kernel)⟩

end FilterList.Injection.UblockOrigin
