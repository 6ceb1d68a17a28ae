import FilterList.Modifier
import FilterList.Proofs.Text.Joining
import FilterList.Proofs.Text.Unescaped
set_option autoImplicit false

/-!
# Modifiers are read back

Escapes are kept in names and values as they are written.  A backslash at the very end of a name or
of a whole modifier therefore takes the `=` or the `,` that the writer puts behind it along, and
this is the only way in which a written list of modifiers fails to be read as the same list.
-/

namespace FilterList.Modifier

open FilterList.Text

/-- What reading an entry of a list gives: the parts of the entry are trimmed, and its signs stand
where the reader looks for them. -/
structure WellFormed (m : Modifier) : Prop where
  name_trimmed : trim m.name = m.name
  value_trimmed : ∀ value, m.value = some value → trim value = value
  /-- the name holds no `=` that would start the value -/
  name_whole : AllEscaped '=' m.name
  /-- a negation sign is read as such -/
  unsigned : m.negated = false → beginsWith '~' m.name = false
  /-- only a sign or a value makes up for a missing name -/
  named : m.negated = false → m.value = none → m.name ≠ []
  /-- the modifier is one entry of a list -/
  one_entry : AllEscaped ',' m.render

/-! ## One modifier written -/

/-- What holds of name and value, and is kept by the two signs, holds of the written modifier. -/
theorem render_holds {P : Text → Prop} (hsign : ∀ s, P s → P ('~' :: s))
    (hequals : ∀ s t, P s → P t → P (s ++ '=' :: t)) {m : Modifier} (hname : P m.name)
    (hvalue : ∀ value, m.value = some value → P value) : P m.render := by
  obtain ⟨name, value, negated⟩ := m
  have hbody : P (render ⟨name, value, false⟩) := by
    cases value with
    | none => simpa [render] using hname
    | some v => exact hequals name v hname (hvalue v rfl)
  cases negated with
  | false => exact hbody
  | true => exact hsign _ hbody

/-- A written modifier is trimmed. -/
theorem WellFormed.trim_render {m : Modifier} (h : m.WellFormed) : trim m.render = m.render :=
  render_holds (P := fun s => trim s = s) (fun _ hs => trim_append_cons trim_nil rfl hs)
    (fun _ _ hs ht => trim_append_cons hs rfl ht) h.name_trimmed h.value_trimmed

theorem WellFormed.render_ne_nil {m : Modifier} (h : m.WellFormed) : m.render ≠ [] := by
  obtain ⟨name, value, negated⟩ := m
  cases negated with
  | true => exact List.cons_ne_nil _ _
  | false =>
    cases value with
    | none => simpa [render] using h.named rfl rfl
    | some v => simp [render]

/-! ## Reading one modifier -/

theorem parse_cons_tilde (s : Text) : parse ('~' :: s) = parseBody true (trim s) := rfl

theorem parse_of_unsigned {s : Text} (h : beginsWith '~' s = false) :
    parse s = parseBody false s := by
  cases s with
  | nil => rfl
  | cons c s =>
    have hc : '~' ≠ c := by
      rintro rfl
      cases h
    simp [parse, after?, hc]

theorem parseBody_name (negated : Bool) {name : Text} (h : AllEscaped '=' name) :
    parseBody negated name = ⟨name, none, negated⟩ := by
  rw [parseBody, cutUnescaped_of_allEscaped h]

/-- A name and a value are read back exactly if the name does not escape the `=` between them. -/
theorem parseBody_append_equals_iff (negated : Bool) {name value : Text} (hname : trim name = name)
    (hvalue : trim value = value) (hwhole : AllEscaped '=' name) :
    parseBody negated (name ++ '=' :: value) = ⟨name, some value, negated⟩ ↔
      endsEscaping name = false := by
  constructor
  · intro h
    cases he : endsEscaping name with
    | false => rfl
    | true =>
      exfalso
      rw [parseBody] at h
      cases hcut : cutUnescaped '=' (name ++ '=' :: value) with
      | none =>
        rw [hcut] at h
        cases (Modifier.mk.inj h).2.1
      | some cut =>
        rw [hcut] at h
        -- a cut behind the written sign leaves one sign too many in the name
        obtain ⟨w, hw⟩ := before_of_cutUnescaped hwhole he hcut
        have hcount : cut.before.count '=' = name.count '=' := by
          rw [← count_trim rfl, (Modifier.mk.inj h).1]
        rw [hw, List.count_append, List.count_cons_self] at hcount
        omega
  · intro he
    rw [parseBody, cutUnescaped_append_cons hwhole he]
    simp only [hname, hvalue]

/-- A written modifier is read back exactly if its name does not escape the `=` before its value. -/
theorem WellFormed.parse_render_iff {m : Modifier} (h : m.WellFormed) :
    parse m.render = m ↔ (m.value ≠ none → endsEscaping m.name = false) := by
  obtain ⟨name, value, negated⟩ := m
  have hname : trim name = name := h.name_trimmed
  have hwhole : AllEscaped '=' name := h.name_whole
  cases value with
  | none =>
    have hread : parse (render ⟨name, none, negated⟩) = parseBody negated name := by
      cases negated with
      | true =>
        rw [render, if_pos rfl, List.append_nil, List.singleton_append, parse_cons_tilde, hname]
      | false =>
        rw [render, if_neg Bool.false_ne_true, List.append_nil, List.nil_append,
          parse_of_unsigned (h.unsigned rfl)]
    rw [hread, parseBody_name negated hwhole]
    simp
  | some v =>
    have hvalue : trim v = v := h.value_trimmed v rfl
    have hread : parse (render ⟨name, some v, negated⟩) = parseBody negated (name ++ '=' :: v) := by
      cases negated with
      | true =>
        rw [render, if_pos rfl, List.singleton_append, List.cons_append, parse_cons_tilde,
          trim_append_cons hname rfl hvalue]
      | false =>
        have hfront : beginsWith '~' (name ++ '=' :: v) = false := by
          cases name with
          | nil => rfl
          | cons c name => exact h.unsigned rfl
        rw [render, if_neg Bool.false_ne_true, List.nil_append, parse_of_unsigned hfront]
    rw [hread, parseBody_append_equals_iff negated hname hvalue hwhole]
    simp

/-! ## What is read -/

/-- What reading a trimmed text without its sign gives: name and value are trimmed parts of it. -/
structure ReadFrom (body : Text) (negated : Bool) (m : Modifier) : Prop where
  sign : m.negated = negated
  name_trimmed : trim m.name = m.name
  name_whole : AllEscaped '=' m.name
  name_part : PartOf '/' m.name body
  value_trimmed : ∀ value, m.value = some value → trim value = value
  value_part : ∀ value, m.value = some value → PartOf '/' value body
  unsigned : beginsWith '~' body = false → beginsWith '~' m.name = false
  /-- without a value the name is all there is -/
  name_only : m.value = none → m.name = body

theorem readFrom_parseBody (negated : Bool) {body : Text} (hbody : trim body = body) :
    ReadFrom body negated (parseBody negated body) := by
  cases hcut : cutUnescaped '=' body with
  | none =>
    have hwhole := cutUnescaped_eq_none_iff.mp hcut
    rw [parseBody_name negated hwhole]
    exact ⟨rfl, hbody, hwhole, PartOf.refl body, (fun _ h => nomatch h), (fun _ h => nomatch h),
      id, fun _ => rfl⟩
  | some cut =>
    rw [parseBody, hcut]
    obtain ⟨htext, hwhole, -⟩ := cutUnescaped_eq_some_iff.mp hcut
    have hbefore : PartOf '/' cut.before body := htext ▸ partOf_before (by decide) _ _
    have hafter : PartOf '/' cut.after body := htext ▸ partOf_after (by decide) _ _
    have hname : PartOf '/' (trim cut.before) cut.before := partOf_trim rfl _
    have hvalue : PartOf '/' (trim cut.after) cut.after := partOf_trim rfl _
    -- the name begins as the trimmed text does
    have hfront : trim cut.before <+: body := trim_isPrefix hbody ⟨_, htext.symm⟩
    refine ⟨rfl, trim_trim _, hname.allEscaped hwhole, hname.trans hbefore, ?_, ?_,
      fun hsign => beginsWith_of_isPrefix hsign hfront, fun h => nomatch h⟩
    · intro value h
      obtain rfl := Option.some.inj h
      exact trim_trim _
    · intro value h
      obtain rfl := Option.some.inj h
      exact hvalue.trans hafter

/-- A modifier is read from a trimmed part of its text, which is the text itself unless a sign was
read in front of it. -/
theorem exists_parseBody {s : Text} (hs : trim s = s) (hne : s ≠ []) :
    ∃ negated body, parse s = parseBody negated body ∧ trim body = body ∧ PartOf '/' body s ∧
      (negated = false → beginsWith '~' body = false ∧ body ≠ []) := by
  cases hfront : beginsWith '~' s with
  | true =>
    obtain ⟨rest, rfl⟩ : ∃ rest, s = '~' :: rest := by
      cases s with
      | nil => exact absurd rfl hne
      | cons c rest => exact ⟨rest, by simpa [beginsWith] using hfront⟩
    have hpart : PartOf '/' rest ('~' :: rest) := partOf_after (c := '~') (by decide) [] rest
    exact ⟨true, trim rest, parse_cons_tilde rest, trim_trim rest,
      (partOf_trim rfl rest).trans hpart, by simp⟩
  | false =>
    exact ⟨false, s, parse_of_unsigned hfront, hs, PartOf.refl s, fun _ => ⟨hfront, hne⟩⟩

/-- A modifier that was read is well-formed, and holds no more unguarded targets than its text. -/
theorem wellFormed_parse {s : Text} (hs : trim s = s) (hne : s ≠ []) (hentry : AllEscaped ',' s) :
    (parse s).WellFormed ∧ ∀ target, target ≠ '~' → target ≠ '=' → AllGuarded target '/' s →
      AllGuarded target '/' (parse s).render := by
  obtain ⟨negated, body, hread, hbody, hpart, hsigned⟩ := exists_parseBody hs hne
  rw [hread]
  have hfrom := readFrom_parseBody negated hbody
  have hname := hfrom.name_part.trans hpart
  have hvalue := fun value hv => (hfrom.value_part value hv).trans hpart
  constructor
  · refine ⟨hfrom.name_trimmed, hfrom.value_trimmed, hfrom.name_whole, ?_, ?_, ?_⟩
    · intro h
      exact hfrom.unsigned (hsigned (hfrom.sign.symm.trans h)).1
    · intro h hv
      rw [hfrom.name_only hv]
      exact (hsigned (hfrom.sign.symm.trans h)).2
    · refine render_holds (fun u hu => ?_)
        (fun u v hu hv => hu.append_cons hv (by decide) (by decide))
        (hname.allEscaped hentry) fun v hv => (hvalue v hv).allEscaped hentry
      exact (allEscaped_of_not_mem List.not_mem_nil).append_cons hu (by decide) (by decide)
  · intro target htilde hequals hguarded
    refine render_holds (fun u hu => ?_)
      (fun u v hu hv => hu.append_cons hv hequals.symm (by decide))
      (hname.allGuarded hguarded) fun v hv => (hvalue v hv).allGuarded hguarded
    exact allGuarded_nil.append_cons hu htilde.symm (by decide)

/-! ## Lists -/

/-- What holds of the empty text and of every written modifier, and is kept by the comma, holds of
the written list. -/
theorem renderList_holds {P : Text → Prop} (hnil : P [])
    (hcomma : ∀ s t, P s → P t → P (s ++ ',' :: t)) {list : List Modifier}
    (h : ∀ m ∈ list, P m.render) : P (renderList list) := by
  by_cases hne : list = []
  · rw [hne]
    exact hnil
  · refine intercalate_holds (fun s t hs ht => ?_) (by simpa using hne) fun s hs => ?_
    · simpa using hcomma s t hs ht
    · obtain ⟨m, hm, rfl⟩ := List.mem_map.mp hs
      exact h m hm

/-- The modifiers that reading a list gives are well-formed, and hold no more unguarded targets
than the text. -/
theorem wellFormed_of_mem_parseList {s : Text} {m : Modifier} (h : m ∈ parseList s) :
    m.WellFormed ∧ ∀ target, target ≠ '~' → target ≠ '=' → AllGuarded target '/' s →
      AllGuarded target '/' m.render := by
  obtain ⟨entry, hentry, rfl⟩ := List.mem_map.mp h
  obtain ⟨hentry, hne⟩ := List.mem_filter.mp hentry
  obtain ⟨piece, hpiece, rfl⟩ := List.mem_map.mp hentry
  have htrim : PartOf '/' (trim piece) piece := partOf_trim rfl piece
  have hcomma := allEscaped_of_mem_splitUnescaped (by decide) hpiece
  have hpart : PartOf '/' piece s := partOf_of_mem_splitUnescaped (by decide) (by decide) hpiece
  obtain ⟨hwell, hguard⟩ :=
    wellFormed_parse (trim_trim piece) (by simpa using hne) (htrim.allEscaped hcomma)
  exact ⟨hwell, fun target h1 h2 h3 => hguard target h1 h2 ((htrim.trans hpart).allGuarded h3)⟩

/-- Splitting, trimming and dropping blank entries keep or lower the number of entries. -/
theorem length_parseList_le (s : Text) : (parseList s).length ≤ (splitUnescaped ',' s).length := by
  rw [parseList, List.length_map]
  calc ((((splitUnescaped ',' s).map trim).filter fun piece => !piece.isEmpty)).length
      ≤ ((splitUnescaped ',' s).map trim).length := List.length_filter_le _ _
    _ = (splitUnescaped ',' s).length := List.length_map trim

/-- The entries of a written list are its written modifiers, if none but the last escapes the comma
behind it. -/
theorem parseList_renderList {list : List Modifier} (h : ∀ m ∈ list, m.WellFormed)
    (hends : ∀ m ∈ list.dropLast, endsEscaping m.render = false) :
    parseList (renderList list) = list.map fun m => parse m.render := by
  by_cases hne : list = []
  · subst hne
    rfl
  · have hpieces : splitUnescaped ',' (renderList list) = list.map render := by
      refine splitUnescaped_intercalate (by decide) (by simpa using hne) ?_ ?_
      · intro p hp
        obtain ⟨m, hm, rfl⟩ := List.mem_map.mp hp
        exact (h m hm).one_entry
      · intro p hp
        rw [← List.map_dropLast] at hp
        obtain ⟨m, hm, rfl⟩ := List.mem_map.mp hp
        exact hends m hm
    have htrimmed : (list.map render).map trim = list.map render := by
      rw [List.map_map]
      exact List.map_congr_left fun m hm => (h m hm).trim_render
    have hkept : (list.map render).filter (fun piece => !piece.isEmpty) = list.map render := by
      rw [List.filter_eq_self]
      intro p hp
      obtain ⟨m, hm, rfl⟩ := List.mem_map.mp hp
      simpa using (h m hm).render_ne_nil
    rw [parseList, hpieces, htrimmed, hkept, List.map_map]
    rfl

/-- A written list of modifiers is read back exactly if no name escapes the `=` before its value
and no modifier but the last escapes the comma behind it. -/
theorem parseList_renderList_eq_iff {list : List Modifier} (h : ∀ m ∈ list, m.WellFormed) :
    parseList (renderList list) = list ↔
      (∀ m ∈ list, m.value ≠ none → endsEscaping m.name = false) ∧
        ∀ m ∈ list.dropLast, endsEscaping m.render = false := by
  by_cases hends : ∀ m ∈ list.dropLast, endsEscaping m.render = false
  · rw [parseList_renderList h hends]
    constructor
    · intro hread
      refine ⟨fun m hm => (h m hm).parse_render_iff.mp ?_, hends⟩
      have hid : list.map (fun m => parse m.render) = list.map id := by rw [hread, List.map_id]
      exact List.map_inj_left.mp hid m hm
    · intro hconditions
      rw [List.map_congr_left (g := id), List.map_id]
      exact fun m hm => (h m hm).parse_render_iff.mpr (hconditions.1 m hm)
  · constructor
    · intro hread
      exfalso
      have hlt : (splitUnescaped ',' (renderList list)).length < (list.map render).length := by
        refine length_splitUnescaped_intercalate_lt (by decide) ?_ ?_
        · intro p hp
          obtain ⟨m, hm, rfl⟩ := List.mem_map.mp hp
          exact (h m hm).one_entry
        · simp only [not_forall, Bool.not_eq_false] at hends
          obtain ⟨m, hm, he⟩ := hends
          refine ⟨m.render, ?_, he⟩
          rw [← List.map_dropLast]
          exact List.mem_map_of_mem hm
      have hle := length_parseList_le (renderList list)
      rw [hread] at hle
      rw [List.length_map] at hlt
      omega
    · exact fun hconditions => absurd hconditions.2 hends

/-- A list of modifiers that was read is written and read back exactly if no name escapes the `=`
before its value and no modifier but the last escapes the comma behind it. -/
theorem parseList_renderList_parseList_iff (raw : Text) :
    parseList (renderList (parseList raw)) = parseList raw ↔
      (∀ m ∈ parseList raw, m.value ≠ none → endsEscaping m.name = false) ∧
        ∀ m ∈ (parseList raw).dropLast, endsEscaping m.render = false :=
  parseList_renderList_eq_iff fun _ hm => (wellFormed_of_mem_parseList hm).1

/-- An escaped comma and an escaped backslash stay in place, and the last modifier may end in a
backslash.  In the two other lists trimming took the blank that the backslash escaped, and the
backslash then stands before the `=` and before the comma. -/
theorem parseList_renderList_parseList_iff_escapes :
    (parseList "~a , b=c\\,d\\\\,e\\ ".toList =
        [⟨['a'], none, true⟩, ⟨['b'], some "c\\,d\\\\".toList, false⟩,
          ⟨['e', '\\'], none, false⟩] ∧
      parseList (renderList (parseList "~a , b=c\\,d\\\\,e\\ ".toList)) =
        parseList "~a , b=c\\,d\\\\,e\\ ".toList) ∧
      ∀ raw ∈ ["a\\ =b".toList, "a\\ ,b".toList],
        parseList (renderList (parseList raw)) ≠ parseList raw := by
  refine ⟨⟨by decide +kernel,
    (parseList_renderList_parseList_iff _).mpr (by decide +kernel)⟩, ?_⟩
  have hlost : ∀ raw ∈ ["a\\ =b".toList, "a\\ ,b".toList],
      ¬ ((∀ m ∈ parseList raw, m.value ≠ none → endsEscaping m.name = false) ∧
        ∀ m ∈ (parseList raw).dropLast, endsEscaping m.render = false) := by decide +kernel
  intro raw hraw hback
  exact hlost raw hraw ((parseList_renderList_parseList_iff raw).mp hback)

end FilterList.Modifier
