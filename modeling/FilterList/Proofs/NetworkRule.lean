import FilterList.NetworkRule
import FilterList.Proofs.Modifier
set_option autoImplicit false

/-!
# Network rules are read back

The separator is the last `$` of a rule that is not escaped and has no `/` behind it.  A written
list of modifiers never holds such a `$`, as the text it was read from had none, so the written `$`
is the separator again unless the first modifier begins with `/`.  Behind the separator the question
is the one for lists of modifiers.  Without modifiers nothing stands behind the pattern, and the
only thing that can be lost is the white space at its end.
-/

namespace FilterList.NetworkRule

open FilterList.Text
open FilterList.Modifier (renderList parseList)

/-! ## Lists of modifiers behind the separator -/

/-- A list of written modifiers holds no separator. -/
theorem allGuarded_renderList {list : List Modifier}
    (h : ∀ m ∈ list, AllGuarded '$' '/' m.render) : AllGuarded '$' '/' (renderList list) :=
  Modifier.renderList_holds allGuarded_nil
    (fun _ _ hs ht => hs.append_cons ht (by decide) (by decide)) h

theorem trim_renderList {list : List Modifier} (h : ∀ m ∈ list, m.WellFormed) :
    trim (renderList list) = renderList list :=
  Modifier.renderList_holds (P := fun s => trim s = s) trim_nil
    (fun _ _ hs ht => trim_append_cons hs rfl ht) fun m hm => (h m hm).trim_render

/-! ## Splitting into pattern and modifiers -/

theorem cutSeparator_eq_some_iff {s : Text} {cut : Cut} :
    cutSeparator s = some cut ↔
      s = cut.before ++ '$' :: cut.after ∧ endsEscaping cut.before = false ∧
        beginsWith '/' cut.after = false ∧ AllGuarded '$' '/' cut.after :=
  cutLastUnescaped_eq_some_iff (by decide)

/-- The two outcomes: the text is all pattern, and so is the pattern read again, or it is cut at the
separator, with modifiers behind it. -/
theorem split_cases (body : Text) :
    (∃ pattern, split body = (pattern, []) ∧ pattern <+: body ∧ split pattern = (pattern, [])) ∨
      ∃ pattern list, split body = (pattern, parseList list) ∧ parseList list ≠ [] ∧
        cutSeparator body = some ⟨pattern, list⟩ := by
  cases hcut : cutSeparator body with
  | none =>
    have hsplit : split body = (body, []) := by rw [split, hcut]
    exact .inl ⟨body, hsplit, List.prefix_rfl, hsplit⟩
  | some cut =>
    cases hlist : parseList cut.after with
    | cons m list =>
      right
      refine ⟨cut.before, cut.after, ?_, by simp [hlist], rfl⟩
      simp [split, hcut, hlist]
    | nil =>
      left
      cases hagain : cutSeparator cut.before with
      | some inner =>
        have hsplit : split body = (body, []) := by simp [split, hcut, hlist, hagain]
        exact ⟨body, hsplit, List.prefix_rfl, hsplit⟩
      | none =>
        have hbody := (cutSeparator_eq_some_iff.mp hcut).1
        refine ⟨cut.before, ?_, ?_, by rw [split, hagain]⟩
        · simp [split, hcut, hlist, hagain]
        · exact ⟨'$' :: cut.after, hbody.symm⟩

theorem fst_split_isPrefix (body : Text) : (split body).1 <+: body := by
  rcases split_cases body with ⟨pattern, hsplit, hfront, -⟩ | ⟨pattern, list, hsplit, -, hcut⟩
  · rwa [hsplit]
  · rw [hsplit]
    exact ⟨'$' :: list, (cutSeparator_eq_some_iff.mp hcut).1.symm⟩

/-- A written separator is found again, with the same modifiers behind it, exactly if no `/` stands
behind it and the list is read back. -/
theorem split_append_eq_iff {pattern written : Text} {list : List Modifier}
    (hpattern : endsEscaping pattern = false) (hguarded : AllGuarded '$' '/' written)
    (hlist : list ≠ []) :
    split (pattern ++ '$' :: written) = (pattern, list) ↔
      beginsWith '/' written = false ∧ parseList written = list := by
  constructor
  · intro h
    have hwhole : ∀ modifiers, (pattern ++ '$' :: written, modifiers) ≠ (pattern, list) := by
      intro modifiers e
      have hlen := congrArg List.length (Prod.mk.inj e).1
      rw [List.length_append, List.length_cons] at hlen
      omega
    rw [split] at h
    cases hcut : cutSeparator (pattern ++ '$' :: written) with
    | none =>
      rw [hcut] at h
      exact absurd h (hwhole _)
    | some cut =>
      simp only [hcut] at h
      split at h
      · exact absurd h (hwhole _)
      · obtain ⟨hbefore, hmodifiers⟩ := Prod.mk.inj h
        obtain ⟨htext, -, hguard, -⟩ := cutSeparator_eq_some_iff.mp hcut
        rw [hbefore] at htext
        obtain rfl := (List.cons.inj (List.append_cancel_left htext)).2
        exact ⟨hguard, hmodifiers⟩
  · rintro ⟨hguard, rfl⟩
    have hcut : cutSeparator (pattern ++ '$' :: written) = some ⟨pattern, written⟩ :=
      cutSeparator_eq_some_iff.mpr ⟨rfl, hpattern, hguard, hguarded⟩
    simp [split, hcut, hlist]

/-! ## The exception mark -/

/-- The mark that a rule is written with. -/
def sign (exception : Bool) : Text := if exception then exceptionMark else []

/-- The text behind the mark is a body: if the mark is missing, it does not begin with one. -/
def IsBody (exception : Bool) (body : Text) : Prop :=
  exception = false → after? exceptionMark body = none

theorem exists_body (raw : Text) :
    ∃ exception body, trim raw = sign exception ++ body ∧ IsBody exception body ∧
      parse raw = ofBody exception body := by
  cases hmark : after? exceptionMark (trim raw) with
  | some body =>
    have hbody : IsBody true body := fun h => by cases h
    exact ⟨true, body, eq_append_of_after? hmark, hbody, by simp only [parse, hmark]⟩
  | none => exact ⟨false, trim raw, rfl, fun _ => hmark, by simp only [parse, hmark]⟩

theorem parse_sign_append {exception : Bool} {body : Text}
    (htrim : trim (sign exception ++ body) = sign exception ++ body)
    (hbody : IsBody exception body) :
    parse (sign exception ++ body) = ofBody exception body := by
  rw [parse, htrim]
  cases exception with
  | true => simp only [sign, if_true, after?_append]
  | false =>
    have hmark : after? exceptionMark (sign false ++ body) = none := hbody rfl
    simp only [hmark]
    rfl

/-- Whether a text begins with the mark is seen before its first `$`. -/
theorem after?_exceptionMark_append (pattern s t : Text) :
    after? exceptionMark (pattern ++ '$' :: s) = none ↔
      after? exceptionMark (pattern ++ '$' :: t) = none := by
  match pattern with
  | [] => simp [exceptionMark, after?]
  | [c] => simp [exceptionMark, after?]
  | c :: d :: pattern => simp [exceptionMark, after?]

theorem IsBody.of_isPrefix {exception : Bool} {body pattern : Text} (h : IsBody exception body)
    (hfront : pattern <+: body) : IsBody exception pattern := by
  intro he
  cases hmark : after? exceptionMark pattern with
  | none => rfl
  | some rest =>
    obtain ⟨tail, rfl⟩ := hfront
    rw [eq_append_of_after? hmark, List.append_assoc] at h
    have hnone := h he
    rw [after?_append] at hnone
    cases hnone

/-- Mark and pattern of a rule stand at the front of its trimmed text. -/
theorem sign_append_pattern_isPrefix (raw : Text) :
    sign (parse raw).exception ++ (parse raw).pattern <+: trim raw := by
  obtain ⟨exception, body, htext, -, hread⟩ := exists_body raw
  rw [hread, htext]
  exact (List.prefix_append_right_inj _).mpr (fst_split_isPrefix body)

/-! ## The rule -/

theorem render_of_modifiers_eq_nil {r : NetworkRule} (h : r.modifiers = []) :
    r.render = sign r.exception ++ r.pattern := by
  rw [render, h, sign]
  simp

theorem render_of_modifiers_ne_nil {r : NetworkRule} (h : r.modifiers ≠ []) :
    r.render = sign r.exception ++ (r.pattern ++ '$' :: renderList r.modifiers) := by
  rw [render, sign]
  simp [h]

/-- When a rule that was read is written such that it is read back. -/
structure Restorable (r : NetworkRule) : Prop where
  /-- without modifiers, no white space ends the pattern -/
  trimmed : r.modifiers = [] → ∀ c, r.pattern.getLast? = some c → isWhiteSpace c = false
  /-- the written separator has no `/` right behind it -/
  separated : r.modifiers ≠ [] → beginsWith '/' (renderList r.modifiers) = false
  /-- no name escapes the `=` before its value -/
  values : ∀ m ∈ r.modifiers, m.value ≠ none → endsEscaping m.name = false
  /-- no modifier escapes the comma behind it -/
  entries : ∀ m ∈ r.modifiers.dropLast, endsEscaping m.render = false

-- The last character is tested as a value: over all characters it could not be evaluated.
instance (r : NetworkRule) : Decidable r.Restorable :=
  decidable_of_iff
    ((r.modifiers = [] → r.pattern.getLast?.any isWhiteSpace = false) ∧
      (r.modifiers ≠ [] → beginsWith '/' (renderList r.modifiers) = false) ∧
      (∀ m ∈ r.modifiers, m.value ≠ none → endsEscaping m.name = false) ∧
      ∀ m ∈ r.modifiers.dropLast, endsEscaping m.render = false)
    ⟨fun ⟨htrimmed, hseparated, hvalues, hentries⟩ =>
        ⟨fun h => (Option.any_eq_false _ _).mp (htrimmed h), hseparated, hvalues, hentries⟩,
      fun h => ⟨fun hnone => (Option.any_eq_false _ _).mpr (h.trimmed hnone), h.separated, h.values,
        h.entries⟩⟩

/-- A rule without modifiers is read back exactly if no white space ends its pattern. -/
theorem parse_sign_append_pattern_iff {exception : Bool} {body pattern : Text}
    (htrim : trim (sign exception ++ body) = sign exception ++ body) (hbody : IsBody exception body)
    (hfront : pattern <+: body) (hsplit : split pattern = (pattern, [])) :
    parse (sign exception ++ pattern) = ⟨.common, exception, isRegex pattern, pattern, []⟩ ↔
      ∀ c, pattern.getLast? = some c → isWhiteSpace c = false := by
  constructor
  · intro h c hc
    have hkept := sign_append_pattern_isPrefix (sign exception ++ pattern)
    rw [h] at hkept
    have hwhole : trim (sign exception ++ pattern) = sign exception ++ pattern :=
      (trim_sublist _).eq_of_length_le hkept.length_le
    refine (trim_eq_self_iff.mp hwhole).2 c ?_
    rw [List.getLast?_append, hc]
    rfl
  · intro hlast
    have hkept : trim (sign exception ++ pattern) = sign exception ++ pattern := by
      have hprefix := (List.prefix_append_right_inj (sign exception)).mpr hfront
      rw [trim, trimStart_of_isPrefix htrim hprefix]
      refine trimEnd_eq_self fun c hc => ?_
      rw [List.getLast?_append] at hc
      cases hpattern : pattern.getLast? with
      | some d =>
        rw [hpattern] at hc
        cases hc
        exact hlast _ hpattern
      | none =>
        rw [hpattern] at hc
        cases exception with
        | true => cases hc; rfl
        | false => cases hc
    rw [parse_sign_append hkept (hbody.of_isPrefix hfront), ofBody, hsplit]

/-- A rule with modifiers is read back exactly if its separator is and the modifiers are. -/
theorem parse_sign_append_modifiers_iff {exception : Bool} {pattern source : Text}
    (htrim : trim (sign exception ++ (pattern ++ '$' :: source)) =
      sign exception ++ (pattern ++ '$' :: source))
    (hbody : IsBody exception (pattern ++ '$' :: source))
    (hcut : cutSeparator (pattern ++ '$' :: source) = some ⟨pattern, source⟩)
    (hne : parseList source ≠ []) :
    parse (sign exception ++ (pattern ++ '$' :: renderList (parseList source))) =
        ⟨.common, exception, isRegex pattern, pattern, parseList source⟩ ↔
      beginsWith '/' (renderList (parseList source)) = false ∧
        parseList (renderList (parseList source)) = parseList source := by
  obtain ⟨-, hpattern, -, hguarded⟩ := cutSeparator_eq_some_iff.mp hcut
  have hwell : ∀ m ∈ parseList source, m.WellFormed :=
    fun m hm => (Modifier.wellFormed_of_mem_parseList hm).1
  have hwritten : AllGuarded '$' '/' (renderList (parseList source)) := by
    refine allGuarded_renderList fun m hm => ?_
    exact (Modifier.wellFormed_of_mem_parseList hm).2 '$' (by decide) (by decide) hguarded
  have hkept : trim (sign exception ++ (pattern ++ '$' :: renderList (parseList source))) =
      sign exception ++ (pattern ++ '$' :: renderList (parseList source)) := by
    rw [← List.append_assoc] at htrim ⊢
    exact trim_append_cons_congr htrim rfl (trim_renderList hwell)
  have hsigned : IsBody exception (pattern ++ '$' :: renderList (parseList source)) :=
    fun he => (after?_exceptionMark_append _ _ _).mp (hbody he)
  rw [parse_sign_append hkept hsigned, ← split_append_eq_iff hpattern hwritten hne, ofBody]
  constructor
  · intro h
    obtain ⟨-, -, -, hfst, hsnd⟩ := NetworkRule.mk.inj h
    exact Prod.ext hfst hsnd
  · intro h
    rw [h]

/-- A rule that was read is written and read back exactly if no white space ends a pattern without
modifiers, no `/` stands behind the separator, and no name and no modifier escapes the sign that is
written behind it. -/
theorem parse_render_parse_iff (raw : Text) :
    parse (parse raw).render = parse raw ↔ (parse raw).Restorable := by
  obtain ⟨exception, body, htext, hbody, hread⟩ := exists_body raw
  have htrim : trim (sign exception ++ body) = sign exception ++ body := by
    rw [← htext, trim_trim]
  rcases split_cases body with
    ⟨pattern, hsplit, hfront, hagain⟩ | ⟨pattern, source, hsplit, hne, hcut⟩
  · have hrule : parse raw = ⟨.common, exception, isRegex pattern, pattern, []⟩ := by
      rw [hread, ofBody, hsplit]
    rw [hrule, render_of_modifiers_eq_nil rfl,
      parse_sign_append_pattern_iff htrim hbody hfront hagain]
    constructor
    · exact fun h => ⟨fun _ => h, fun h => absurd rfl h, by simp, by simp⟩
    · exact fun h => h.trimmed rfl
  · have hrule : parse raw = ⟨.common, exception, isRegex pattern, pattern, parseList source⟩ := by
      rw [hread, ofBody, hsplit]
    obtain ⟨rfl, -⟩ := cutSeparator_eq_some_iff.mp hcut
    have hwell : ∀ m ∈ parseList source, m.WellFormed :=
      fun m hm => (Modifier.wellFormed_of_mem_parseList hm).1
    rw [hrule, render_of_modifiers_ne_nil hne,
      parse_sign_append_modifiers_iff htrim hbody hcut hne,
      Modifier.parseList_renderList_eq_iff hwell]
    constructor
    · exact fun h => ⟨fun h' => absurd h' hne, fun _ => h.1, h.2.1, h.2.2⟩
    · exact fun h => ⟨h.separated hne, h.values, h.entries⟩

/-- The `$` of the regular expression has a `/` behind it, so the rule is cut at the second one.  Of
the other rules each misses one condition: a blank at the end of the pattern, a modifier that begins
with `/`, and a backslash before the `=` and before the comma. -/
theorem parse_render_parse_iff_guarded :
    (parse "@@/a$/$~b,c=d\\,e".toList = ⟨.common, true, true, "/a$/".toList,
        [⟨['b'], none, true⟩, ⟨['c'], some "d\\,e".toList, false⟩]⟩ ∧
      parse (parse "@@/a$/$~b,c=d\\,e".toList).render = parse "@@/a$/$~b,c=d\\,e".toList) ∧
      ∀ raw ∈ ["x $".toList, "x$ /b".toList, "x$b\\ =c".toList, "x$b\\ ,c".toList],
        parse (parse raw).render ≠ parse raw := by
  refine ⟨⟨by decide +kernel, (parse_render_parse_iff _).mpr (by decide +kernel)⟩, ?_⟩
  have hlost : ∀ raw ∈ ["x $".toList, "x$ /b".toList, "x$b\\ =c".toList, "x$b\\ ,c".toList],
      ¬ (parse raw).Restorable := by decide +kernel
  intro raw hraw hback
  exact hlost raw hraw ((parse_render_parse_iff raw).mp hback)

end FilterList.NetworkRule
