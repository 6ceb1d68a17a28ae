import FilterList.Proofs.Css.MediaQuery
set_option autoImplicit false

/-!
# A group that is left open is never closed again

When a part escapes the parenthesis behind it, its group is open where the part ends.  Every other
group that is written later opens one bracket and closes one at most, so none of them closes it:
reading stops at the open group, and the list is refused as a whole.
-/

namespace FilterList

namespace Text

/-! ## Text that closes no group -/

theorem groupStep_add {depth depth' : Nat} {c : Char} (h : groupStep depth c = some depth')
    (around : Nat) : groupStep (depth + around) c = some (depth' + around) := by
  rw [groupStep_eq_some_iff] at h ⊢
  rcases h with ⟨hopen, rfl⟩ | ⟨hclose, rfl⟩ | ⟨hopen, hclose, rfl⟩
  · exact .inl ⟨hopen, Nat.add_right_comm depth 1 around⟩
  · exact .inr (.inl ⟨hclose, Nat.add_right_comm depth' 1 around⟩)
  · exact .inr (.inr ⟨hopen, hclose, rfl⟩)

/-- Brackets that match inside a text match at every depth around it. -/
theorem pass_groupStep_add {s : Text} {depth depth' : Nat} {q q' : Quotation}
    (h : pass groupStep depth q s = some (depth', q')) (around : Nat) :
    pass groupStep (depth + around) q s = some (depth' + around, q') :=
  pass_of_simulation groupStep (· + around) (fun _ _ _ hstep => groupStep_add hstep around) h

/-- The text closes no group that was opened before it, and escapes nothing behind it. -/
structure Unclosing (s : Text) : Prop where
  passes : ∀ depth, ∃ depth', pass groupStep depth none s = some (depth', none)
  even : endsEscaping s = false

theorem Unclosing.nil : Unclosing [] := ⟨fun depth => ⟨depth, rfl⟩, rfl⟩

theorem Unclosing.append {s t : Text} (hs : Unclosing s) (ht : Unclosing t) :
    Unclosing (s ++ t) := by
  constructor
  · intro depth
    obtain ⟨mid, hmid⟩ := hs.passes depth
    obtain ⟨depth', hdepth⟩ := ht.passes mid
    exact ⟨depth', by rw [pass_append hs.even, hmid, Option.bind_some, hdepth]⟩
  · rw [endsEscaping_append hs.even, ht.even]

theorem unclosing_of_inert {c : Char} (hc : Inert groupStep c) : Unclosing [c] := by
  have hinert : ∀ d ∈ [c], Inert groupStep d := by
    intro d hd
    rw [List.mem_singleton.mp hd]
    exact hc
  exact ⟨fun depth => ⟨depth, pass_of_inert hinert depth Quotation.proper_none⟩,
    endsEscaping_of_inert hinert⟩

/-- A group whose closing parenthesis may be escaped by its content. -/
theorem unclosing_group {content : Text} (h : pass groupStep 0 none content = some (0, none)) :
    Unclosing ('(' :: content ++ [')']) := by
  constructor
  · intro depth
    have hinside := pass_groupStep_add h (depth + 1)
    rw [Nat.zero_add] at hinside
    rw [List.cons_append, pass_cons (by decide), advance_groupStep_open, Option.bind_some]
    cases hends : endsEscaping content with
    | false =>
      refine ⟨depth, ?_⟩
      rw [pass_append hends, hinside, Option.bind_some, pass_cons (by decide),
        advance_groupStep_close]
      rfl
    | true =>
      refine ⟨depth + 1, ?_⟩
      rw [pass_append_cons hends, hinside]
      rfl
  · exact endsEscaping_concat_of_ne (by decide) _

/-- A group whose parenthesis is escaped is not closed by text that closes no group. -/
theorem group?_eq_none_of_endsEscaping {content t : Text}
    (h : pass groupStep 0 none content = some (0, none)) (hends : endsEscaping content = true)
    (ht : Unclosing t) : group? ('(' :: (content ++ ')' :: t)) = none := by
  obtain ⟨depth, hdepth⟩ := ht.passes 0
  rw [group?, breakBare_append_cons_of_pass h hends, breakBare_of_pass hdepth]

end Text

namespace Css

open Token Reader Text

/-! ## Repeated reading of what was written -/

namespace Reader

variable {α : Type}

theorem tail_flatten {write : α → Text} {tail : Text → Prop} {as : List α}
    (htail : ∀ a ∈ as, ∀ t, tail t → tail (write a ++ t)) {t : Text} (ht : tail t) :
    tail ((as.map write).flatten ++ t) := by
  induction as with
  | nil => exact ht
  | cons a as ih =>
    rw [List.map_cons, List.flatten_cons, List.append_assoc]
    exact htail a (by simp) _ (ih fun b hb => htail b (by simp [hb]))

/-- Repeated reading, if it succeeds, stops at a place as `stuck` says. -/
def GetsStuck (p : Reader α) (stuck : Text → Prop) (s : Text) : Prop :=
  ∀ as rest, many p s = .done as rest → stuck rest

/-- Reading gets stuck where it does so behind each first value that it can give, and where it
would stop at once. -/
theorem GetsStuck.of_done {p : Reader α} {stuck : Text → Prop} (hp : Progress p) {s : Text}
    (hdone : ∀ a mid, p s = .done a mid → GetsStuck p stuck mid) (hs : Refuses p s → stuck s) :
    GetsStuck p stuck s := by
  intro as rest hmany
  cases as with
  | nil =>
    obtain ⟨rfl, hrefuses⟩ := (many_eq_done_nil_iff hp).mp hmany
    exact hs hrefuses
  | cons a as =>
    obtain ⟨mid, ha, hmany⟩ := (many_eq_done_cons_iff hp).mp hmany
    exact hdone a mid ha as rest hmany

theorem GetsStuck.of_refuses {p : Reader α} {stuck : Text → Prop} (hp : Progress p) {s : Text}
    (h : Refuses p s) (hs : stuck s) : GetsStuck p stuck s :=
  .of_done hp (fun _ _ ha => absurd ha h.ne_done) fun _ => hs

/-- Behind a value that is read back, reading gets stuck where it does so without the value. -/
theorem GetsStuck.of_written {p : Reader α} {write : α → Text} {ok : α → Prop}
    {ends stuck : Text → Prop} (hp : Progress p) {a : α} (hread : ReadsBack p write ok ends a)
    (hok : ok a) {s : Text} (hs : ends s) (h : GetsStuck p stuck s) :
    GetsStuck p stuck (write a ++ s) := by
  have hdone := (hread s s hs).mpr ⟨hok, rfl⟩
  refine .of_done hp ?_ fun hrefuses => absurd hdone hrefuses.ne_done
  intro b mid hb
  rw [hdone] at hb
  cases hb
  exact h

/-- Values are written one behind the other, and reading gets stuck at each that is not as `ok`
says.  Then it gets stuck if there is such a value.  What may stand behind a value is as `tail`
says. -/
theorem getsStuck_written {p : Reader α} {write : α → Text} {ok : α → Prop}
    {ends tail stuck : Text → Prop} (hp : Progress p) {as : List α}
    (hread : ∀ a ∈ as, ReadsBack p write ok ends a) (hends : ∀ t, tail t → ends t)
    (htail : ∀ a ∈ as, ∀ t, tail t → tail (write a ++ t))
    (hstuck : ∀ a ∈ as, ¬ ok a → ∀ t, tail t → GetsStuck p stuck (write a ++ t))
    {t : Text} (ht : tail t) (hbad : ¬ ∀ a ∈ as, ok a) :
    GetsStuck p stuck ((as.map write).flatten ++ t) := by
  induction as with
  | nil => simp at hbad
  | cons a as ih =>
    simp only [List.mem_cons, forall_eq_or_imp] at hread htail hstuck hbad
    have hothers : tail ((as.map write).flatten ++ t) := tail_flatten htail.2 ht
    rw [List.map_cons, List.flatten_cons, List.append_assoc]
    by_cases hok : ok a
    · have hbad' : ¬ ∀ b ∈ as, ok b := fun hall => hbad ⟨hok, hall⟩
      exact .of_written hp hread.1 hok (hends _ hothers) (ih hread.2 htail.2 hstuck.2 hbad')
    · exact hstuck.1 hok _ hothers

end Reader

/-! ## Parts -/

namespace MediaPart

theorem WellFormed.unclosing {part : MediaPart} (h : part.WellFormed) : Unclosing part.render := by
  cases h with
  | group hcontent =>
    rw [hcontent.render]
    exact unclosing_group hcontent.passes
  | keyword hn =>
    exact ⟨fun depth => ⟨depth, hn.1.pass (fun _ => inert_groupStep (by decide)) depth⟩,
      hn.1.endsEscaping⟩

/-- A part that escapes its parenthesis is a group. -/
theorem WellFormed.exists_writtenAs {part : MediaPart} (h : part.WellFormed)
    (hodd : part.escapesEnd = true) : ∃ content, part.WrittenAs content := by
  cases h with
  | group hcontent => exact ⟨_, hcontent⟩
  | keyword _ => cases hodd

theorem WellFormed.head?_render {part : MediaPart} (h : part.WellFormed)
    (hodd : part.escapesEnd = true) (t : Text) : (part.render ++ t).head? = some '(' := by
  obtain ⟨content, hcontent⟩ := h.exists_writtenAs hodd
  rw [hcontent.render]
  rfl

/-- A part that escapes its parenthesis is not read at all from its written form. -/
theorem WellFormed.refuses {part : MediaPart} (h : part.WellFormed)
    (hodd : part.escapesEnd = true) {t : Text} (ht : Unclosing t) :
    Refuses MediaPart.reader (part.render ++ t) := by
  obtain ⟨content, hcontent⟩ := h.exists_writtenAs hodd
  have htext : part.render ++ t = '(' :: (content ++ ')' :: t) := by simp [hcontent.render]
  have hgroup : group? ('(' :: (content ++ ')' :: t)) = none :=
    group?_eq_none_of_endsEscaping hcontent.passes (by rw [hcontent.ends, hodd]) ht
  have hrefuses : Refuses Token.group ('(' :: (content ++ ')' :: t)) :=
    ⟨.soft, _, by rw [Token.group, hgroup], rfl⟩
  rw [htext]
  exact Refuses.either hrefuses.map
    (refuses_name (endsName_cons (by decide) (by decide) _)).map

end MediaPart

/-! ## Queries -/

namespace MediaQuery

/-- The text neither goes on with a name that has begun nor closes a group. -/
def Continues (t : Text) : Prop := EndsName t ∧ Unclosing t

/-- A character that stands between parts or queries. -/
theorem continues_cons {c : Char} (hc : c = ' ' ∨ c = ',') {t : Text} (ht : Unclosing t) :
    Continues (c :: t) := by
  rcases hc with rfl | rfl
  · exact ⟨endsName_cons (by decide) (by decide) t,
      (unclosing_of_inert (inert_groupStep (p := (· == ' ')) (by decide) rfl)).append ht⟩
  · exact ⟨endsName_cons (by decide) (by decide) t,
      (unclosing_of_inert (inert_groupStep (p := (· == ',')) (by decide) rfl)).append ht⟩

/-- Only blanks stand between the text and the parenthesis of an open group. -/
def AtGroup (s : Text) : Prop := (skipBlank s).head? = some '('

/-- Parts are read up to the one that escapes its parenthesis. -/
theorem getsStuck_part {part : MediaPart} (h : part.WellFormed) (hodd : part.escapesEnd ≠ false)
    {pad : Text} (hpad : IsGap pad) {t : Text} (ht : Unclosing t) :
    GetsStuck partReader AtGroup (pad ++ part.render ++ t) := by
  rw [ne_eq, Bool.not_eq_false] at hodd
  have hskip : skipBlank (pad ++ part.render ++ t) = part.render ++ t := by
    rw [List.append_assoc, skipBlank_append hpad (h.render_tight t)]
  refine .of_refuses progress_partReader ?_ ?_
  · refine refuses_bind_of_done (a := ()) (blank_eq_done_iff.mpr rfl) ?_
    rw [hskip]
    exact h.refuses hodd ht
  · rw [AtGroup, hskip]
    exact h.head?_render hodd t

section

variable {first : MediaPart} {others : List MediaPart}
  (hparts : ∀ part ∈ first :: others, part.WellFormed)
include hparts

theorem continues_others {t : Text} (ht : Continues t) :
    Continues ((others.map fun part => [' '] ++ part.render).flatten ++ t) :=
  tail_flatten (fun part hpart _ ht =>
    continues_cons (.inl rfl) ((hparts part (by simp [hpart])).unclosing.append ht.2)) ht

/-- Parts are read up to one that escapes its parenthesis, if there is one. -/
theorem getsStuck_parts (hbad : ¬ ∀ part ∈ first :: others, part.escapesEnd = false) {t : Text}
    (ht : Continues t) :
    GetsStuck partReader AtGroup
      (first.render ++ ((others.map fun part => [' '] ++ part.render).flatten ++ t)) := by
  have hnext := continues_others hparts ht
  have hgap : IsGap [' '] := .char rfl .nil
  by_cases hfirst : first.escapesEnd = false
  · refine .of_written progress_partReader (readsBack_partReader (hparts first (by simp)) .nil)
      hfirst hnext.1 ?_
    refine getsStuck_written progress_partReader
      (fun part hpart => readsBack_partReader (hparts part (by simp [hpart])) hgap)
      (fun _ ht => ht.1) ?_ ?_ ht ?_
    · intro part hpart t ht
      exact continues_cons (.inl rfl) ((hparts part (by simp [hpart])).unclosing.append ht.2)
    · intro part hpart hodd t ht
      exact getsStuck_part (hparts part (by simp [hpart])) hodd hgap ht.2
    · simpa [hfirst] using hbad
  · exact getsStuck_part (hparts first (by simp)) hfirst .nil hnext.2

end

theorem WellFormed.unclosing {q : MediaQuery} (h : q.WellFormed) : Unclosing q.render := by
  obtain ⟨parts⟩ := q
  obtain ⟨hne, hparts⟩ := h
  cases parts with
  | nil => exact absurd rfl hne
  | cons first others =>
    have hothers := (continues_others hparts ⟨endsName_nil, .nil⟩).2
    rw [List.append_nil] at hothers
    rw [render_cons]
    exact (hparts first (by simp)).unclosing.append hothers

/-- A query with a part that escapes its parenthesis is read up to such a part, if at all. -/
theorem WellFormed.atGroup_of_reader {q q' : MediaQuery} (h : q.WellFormed)
    (hbad : ¬ q.Restorable) {t mid : Text} (ht : Continues t)
    (hread : MediaQuery.reader (q.render ++ t) = .done q' mid) : AtGroup mid := by
  obtain ⟨parts⟩ := q
  obtain ⟨hne, hparts⟩ := h
  have hmany := (reader_eq_done_iff.mp hread).2
  cases parts with
  | nil => exact absurd rfl hne
  | cons first others =>
    rw [render_cons, List.append_assoc] at hmany
    exact getsStuck_parts hparts hbad ht _ _ hmany

end MediaQuery

/-! ## Lists of queries -/

namespace MediaQueryList

open MediaQuery

/-- Something other than blanks is left of the text. -/
def LeavesText (s : Text) : Prop := skipBlank s ≠ []

/-- What may stand behind a query of a list. -/
def Ends (t : Text) : Prop := EndsQuery t ∧ Continues t

theorem ends_query {q : MediaQuery} (h : q.WellFormed) (t : Text) (ht : Ends t) :
    Ends (',' :: q.render ++ t) :=
  ⟨endsQuery_comma _, continues_cons (.inr rfl) (h.unclosing.append ht.2.2)⟩

/-- Behind an open group the list is not read on. -/
theorem getsStuck_atGroup {s : Text} (h : AtGroup s) :
    GetsStuck (do Token.comma; MediaQuery.reader) LeavesText s := by
  refine .of_refuses (progress_comma MediaQuery.reader_sound) ?_ ?_
  · refine Refuses.bind (refuses_comma ?_)
    rw [h]
    decide
  · intro hnil
    rw [AtGroup, hnil] at h
    cases h

/-- Queries are read up to the one with a part that escapes its parenthesis. -/
theorem getsStuck_query {q : MediaQuery} (h : q.WellFormed) (hbad : ¬ q.Restorable) (t : Text)
    (ht : Ends t) :
    GetsStuck (do Token.comma; MediaQuery.reader) LeavesText (',' :: q.render ++ t) := by
  have hcomma : skipBlank (',' :: (q.render ++ t)) = ',' :: (q.render ++ t) :=
    tight_cons (by decide) (by decide) _
  refine .of_done (progress_comma MediaQuery.reader_sound) ?_ ?_
  · intro q' mid hread
    rw [bind_eq_done_iff] at hread
    obtain ⟨_, behind, hbehind, hread⟩ := hread
    rw [comma_eq_done_iff, List.cons_append, hcomma] at hbehind
    rw [← (List.cons.inj hbehind).2] at hread
    exact getsStuck_atGroup (h.atGroup_of_reader hbad ht.2 hread)
  · intro _
    rw [LeavesText, List.cons_append, hcomma]
    simp

/-- A list of queries with a part that escapes its parenthesis is not read from its written
form. -/
theorem WellFormed.parse_render_ne_ok {l : MediaQueryList} (h : l.WellFormed)
    (hbad : ¬ l.Restorable) (l' : MediaQueryList) : MediaQueryList.parse l.render ≠ .ok l' := by
  obtain ⟨queries⟩ := l
  obtain ⟨hne, hqueries⟩ := h
  intro hparse
  obtain ⟨rest, hread, hrest⟩ := parse_eq_ok_iff.mp hparse
  rw [separated_eq_done_iff] at hread
  obtain ⟨first', others', mid, -, hfirst', hothers'⟩ := hread
  cases queries with
  | nil => exact absurd rfl hne
  | cons first others =>
    have hnil : Ends [] := ⟨endsQuery_nil, endsName_nil, .nil⟩
    have htail : ∀ q ∈ others, ∀ t, Ends t → Ends (',' :: q.render ++ t) :=
      fun q hq => ends_query (hqueries q (List.mem_cons_of_mem first hq))
    have hends := tail_flatten htail hnil
    rw [render_cons, ← List.append_nil (List.flatten _)] at hfirst'
    have hstuck : GetsStuck (do Token.comma; MediaQuery.reader) LeavesText mid := by
      by_cases hok : first.Restorable
      · -- the first query is read, and one of the others stops the reader
        have hdone := ((hqueries first (by simp)).readsBack _ _ hends.1).mpr ⟨hok, rfl⟩
        rw [hdone, Reply.done.injEq] at hfirst'
        rw [← hfirst'.2]
        refine getsStuck_written (progress_comma MediaQuery.reader_sound)
          (fun q hq => readsBack_comma (hqueries q (List.mem_cons_of_mem first hq)))
          (fun _ ht => ht.1) htail
          (fun q hq => getsStuck_query (hqueries q (List.mem_cons_of_mem first hq))) hnil ?_
        simpa [Restorable, hok] using hbad
      · exact getsStuck_atGroup
          ((hqueries first (by simp)).atGroup_of_reader hok hends.2 hfirst')
    exact hstuck _ _ hothers' hrest

/-- A list of queries that was read is read back from its written form exactly if every value of a
feature and every verbatim content ends in an even number of backslashes; otherwise its written
form is an error. -/
theorem parse_render_exact {t : Text} {l : MediaQueryList}
    (h : MediaQueryList.parse t = .ok l) :
    (MediaQueryList.parse l.render = .ok l ↔ l.Restorable) ∧
      (¬ l.Restorable → ∃ e, MediaQueryList.parse l.render = .error e) := by
  have hwf := wellFormed_of_parse h
  refine ⟨hwf.parse_render_iff, ?_⟩
  intro hbad
  cases hparse : MediaQueryList.parse l.render with
  | ok l' => exact absurd hparse (hwf.parse_render_ne_ok hbad l')
  | error e => exact ⟨e, rfl⟩

/-- A trimmed blank leaves the parenthesis escaped; with a value that is not cut, nothing is. -/
theorem parse_render_exact_open_group :
    (∃ l e, MediaQueryList.parse "(a\\ ) and (b)".toList = .ok l ∧ ¬ l.Restorable ∧
      MediaQueryList.parse l.render = .error e) ∧
    ∃ l, MediaQueryList.parse "screen and (min-width: 1px)".toList = .ok l ∧
      MediaQueryList.parse l.render = .ok l := by
  have hopen : MediaQueryList.parse "(a\\ ) and (b)".toList =
      .ok ⟨[⟨[.verbatim "a\\".toList, .keyword "and".toList, .feature "b".toList none]⟩]⟩ :=
    Reader.parseAs_eq_ok_iff.mpr (by decide +kernel)
  have hclosed : MediaQueryList.parse "screen and (min-width: 1px)".toList =
      .ok ⟨[⟨[.keyword "screen".toList, .keyword "and".toList,
        .feature "min-width".toList (some "1px".toList)]⟩]⟩ :=
    Reader.parseAs_eq_ok_iff.mpr (by decide +kernel)
  obtain ⟨e, he⟩ := (parse_render_exact hopen).2 (by decide)
  exact ⟨⟨_, e, hopen, by decide, he⟩,
    ⟨_, hclosed, (parse_render_exact hclosed).1.mpr (by decide)⟩⟩

end MediaQueryList

end Css

end FilterList
