import FilterList.Css.MediaQuery
import FilterList.Proofs.Css.Canonical
set_option autoImplicit false

/-!
# Media queries are read back as they were, or not

The content of a group is trimmed and sorted into a feature or anything else.  Sorting what is
written for it gives the same part again.  But trimming can take the blank that a final backslash
escaped, and then the parenthesis that is written behind the content is escaped in its place.
-/

namespace FilterList.Css

open Token Reader Text

namespace MediaPart

/-! ## The content of a group -/

/-- The parenthesis that is written behind the part is escaped by what stands before it. -/
def escapesEnd : MediaPart → Bool
  | keyword _ | feature _ none => false
  | feature _ (some value) => endsEscaping value
  | verbatim text => endsEscaping text

/-- The part is written as the content in parentheses, and the content is sorted as the part. -/
structure WrittenAs (part : MediaPart) (content : Text) : Prop where
  render : part.render = '(' :: content ++ [')']
  sorted : ofGroup content = part
  passes : pass groupStep 0 none content = some (0, none)
  ends : endsEscaping content = part.escapesEnd

theorem ofGroup_trim (r : Text) : ofGroup (trim r) = ofGroup r := by
  rw [ofGroup, ofGroup, trim_trim]

theorem writtenAs_trim {r : Text} (hr : pass groupStep 0 none r = some (0, none))
    (hrender : (ofGroup r).render = '(' :: trim r ++ [')'])
    (hends : endsEscaping (trim r) = (ofGroup r).escapesEnd) :
    (ofGroup r).WrittenAs (trim r) :=
  ⟨hrender, ofGroup_trim r, by rw [pass_trim fun _ => inert_groupStep (by decide), hr], hends⟩

/-- The two sides of a colon behind a plain name. -/
theorem pass_behind_colon {before after : Text} (hname : isPlainName (trim before) = true) :
    pass groupStep 0 none (before ++ ':' :: after) = pass groupStep 0 none after := by
  have hinert : ∀ c ∈ before ++ [':'], Inert groupStep c := by
    intro c hc
    rw [List.mem_append, List.mem_singleton] at hc
    rcases hc with hc | rfl
    · obtain ⟨x, y, hbefore, hx, hy⟩ := exists_eq_append_trim before
      rw [hbefore, List.mem_append, List.mem_append] at hc
      rcases hc with (hc | hc) | hc
      · exact inert_groupStep (by decide) (hx c hc)
      · exact inert_groupStep (by decide) ((isPlainName_iff.mp hname).2 c hc)
      · exact inert_groupStep (by decide) (hy c hc)
    · exact inert_groupStep (p := (· == ':')) (by decide) rfl
  have hsplit : before ++ ':' :: after = (before ++ [':']) ++ after := by simp
  rw [hsplit, pass_inert_append hinert 0 Quotation.proper_none]

/-- A feature with a value, from the two sides of its colon. -/
theorem writtenAs_feature {name value : Text} (hname : isPlainName name = true)
    (hnameTrim : trim name = name) (hvalue : value ≠ []) (hvalueTrim : trim value = value)
    (hpass : pass groupStep 0 none value = some (0, none)) :
    (feature name (some value)).WrittenAs (name ++ ':' :: value) := by
  obtain ⟨hne, hchars⟩ := isPlainName_iff.mp hname
  have hsplit : name ++ ':' :: value = name ++ [':'] ++ value := by simp
  have htrim : trim (name ++ ':' :: value) = name ++ ':' :: value := by
    rw [hsplit]
    exact trim_between hnameTrim hne hvalueTrim hvalue [':']
  have hcut : cutFirst ':' (name ++ ':' :: value) = some ⟨name, value⟩ := by
    apply cutFirst_append
    intro hmem
    exact absurd (hchars ':' hmem) (by decide)
  refine ⟨by simp [MediaPart.render], ?_, ?_, ?_⟩
  · rw [ofGroup, htrim]
    simp [hcut, hnameTrim, hvalueTrim, hname, hvalue]
  · rw [pass_behind_colon (by rw [hnameTrim, hname]), hpass]
  · rw [hsplit, endsEscaping_append (endsEscaping_concat_of_ne (by decide) name)]
    rfl

/-- What a group is sorted as is written with the same content, apart from white space. -/
theorem exists_writtenAs {r : Text} (hr : pass groupStep 0 none r = some (0, none)) :
    ∃ content, (ofGroup r).WrittenAs content ∧ content.Sublist r ∧
      ∀ c, isWhiteSpace c = false → content.count c = r.count c := by
  have htrimmed : ∀ {part : MediaPart}, ofGroup r = part →
      part.render = '(' :: trim r ++ [')'] → endsEscaping (trim r) = part.escapesEnd →
      ∃ content, (ofGroup r).WrittenAs content ∧ content.Sublist r ∧
        ∀ c, isWhiteSpace c = false → content.count c = r.count c := by
    intro part hpart hrender hends
    refine ⟨trim r, writtenAs_trim hr ?_ ?_, trim_sublist r, fun c hc => count_trim hc r⟩
    · rw [hpart, hrender]
    · rw [hpart, hends]
  cases hcut : cutFirst ':' (trim r) with
  | none =>
    cases hplain : isPlainName (trim r) with
    | true =>
      have hpart : ofGroup r = .feature (trim r) none := by simp [ofGroup, hcut, hplain]
      refine htrimmed hpart rfl ?_
      have hchars := (isPlainName_iff.mp hplain).2
      exact endsEscaping_of_not_mem fun h => absurd (hchars _ h) (by decide)
    | false =>
      have hpart : ofGroup r = .verbatim (trim r) := by simp [ofGroup, hcut, hplain]
      exact htrimmed hpart rfl rfl
  | some cut =>
    cases hplain : (isPlainName (trim cut.before) && !(trim cut.after).isEmpty) with
    | false =>
      have hpart : ofGroup r = .verbatim (trim r) := by simp [ofGroup, hcut, hplain]
      exact htrimmed hpart rfl rfl
    | true =>
      have hpart : ofGroup r = .feature (trim cut.before) (some (trim cut.after)) := by
        simp [ofGroup, hcut, hplain]
      rw [Bool.and_eq_true, Bool.not_eq_true', List.isEmpty_eq_false_iff] at hplain
      obtain ⟨hname, hvalue⟩ := hplain
      obtain ⟨htext, -⟩ := cutFirst_eq_some hcut
      have hpass : pass groupStep 0 none (trim cut.after) = some (0, none) := by
        rw [pass_trim fun _ => inert_groupStep (by decide), ← pass_behind_colon hname, ← htext,
          pass_trim fun _ => inert_groupStep (by decide), hr]
      rw [hpart]
      refine ⟨_, writtenAs_feature hname (trim_trim _) hvalue (trim_trim _) hpass, ?_, ?_⟩
      · have hsub := (trim_sublist cut.before).append ((trim_sublist cut.after).cons_cons ':')
        rw [← htext] at hsub
        exact hsub.trans (trim_sublist r)
      · intro c hc
        rw [← count_trim hc r, htext, List.count_append, List.count_append, List.count_cons,
          List.count_cons, count_trim hc, count_trim hc]

/-! ## Parts that were read -/

/-- A group or a keyword. -/
inductive IsPart : Text → MediaPart → Prop
  | group {r : Text} : Balanced r → IsPart ('(' :: r ++ [')']) (ofGroup r)
  | keyword {n : Text} : IsName n → IsPart n (.keyword n)

/-- What holds of every part that was read. -/
inductive WellFormed : MediaPart → Prop
  | group {part : MediaPart} {content : Text} : part.WrittenAs content → WellFormed part
  | keyword {n : Text} : IsName n → WellFormed (.keyword n)

theorem reader_sound : Sound IsPart MediaPart.reader := by
  intro s part rest h
  unfold MediaPart.reader at h
  rw [either_eq_done_iff, map_eq_done_iff, map_eq_done_iff] at h
  rcases h with ⟨r, hgroup, rfl⟩ | ⟨-, n, hname, rfl⟩
  · rw [group_eq_done_iff] at hgroup
    obtain ⟨rfl, hr⟩ := hgroup
    exact ⟨'(' :: r ++ [')'], by simp, .group hr⟩
  · obtain ⟨rfl, hn, -⟩ := name_sound hname
    exact ⟨n, rfl, .keyword hn⟩

theorem IsPart.wellFormed {u : Text} {part : MediaPart} (h : IsPart u part) : part.WellFormed := by
  cases h with
  | group hr =>
    obtain ⟨content, hcontent, -, -⟩ := exists_writtenAs (hr.pass 0)
    exact .group hcontent
  | keyword hn => exact .keyword hn

theorem IsPart.respelled {u : Text} {part : MediaPart} (h : IsPart u part) :
    Respelled u part.render := by
  cases h with
  | group hr =>
    obtain ⟨content, hcontent, hsub, -⟩ := exists_writtenAs (hr.pass 0)
    rw [hcontent.render]
    exact .group (closesQuotations_of_pass hcontent.passes) fun c _ _ _ => hsub.count_le c
  | keyword hn => exact hn.respelled

theorem WellFormed.render_tight {part : MediaPart} (h : part.WellFormed) (t : Text) :
    Tight (part.render ++ t) := by
  cases h with
  | group hcontent =>
    rw [hcontent.render]
    exact tight_cons (by decide) (by decide) _
  | keyword hn => exact hn.tight t

theorem WellFormed.render_ne_nil {part : MediaPart} (h : part.WellFormed) : part.render ≠ [] := by
  cases h with
  | group hcontent =>
    rw [hcontent.render]
    simp
  | keyword hn => exact hn.2

theorem IsPart.ne_nil {u : Text} {part : MediaPart} (h : IsPart u part) : u ≠ [] := by
  cases h with
  | group _ => simp
  | keyword hn => exact hn.2

/-! ## Parts that are written -/

theorem refuses_group {s : Text} (h : s.head? ≠ some '(') : Token.group.Refuses s := by
  have hnone : group? s = none := by
    cases s with
    | nil => rfl
    | cons c s =>
      unfold group?
      split
      · next heq =>
        rw [heq] at h
        exact absurd rfl h
      · rfl
  exact ⟨.soft, s, by rw [Token.group, hnone], rfl⟩

theorem reader_keyword {n : Text} (hn : IsName n) {t : Text} (ht : EndsName t) :
    MediaPart.reader (n ++ t) = .done (.keyword n) t := by
  unfold MediaPart.reader
  rw [either_eq_done_iff, map_eq_done_iff, map_eq_done_iff]
  refine .inr ⟨Refuses.map (refuses_group ?_), n, name_complete hn ht, rfl⟩
  obtain ⟨c, m, rfl, hc⟩ := hn.exists_cons
  intro hhead
  simp only [List.cons_append, List.head?_cons, Option.some.injEq] at hhead
  subst hhead
  rcases hc with hc | hc
  all_goals exact absurd hc (by decide)

theorem reader_group_iff {content t rest : Text} {part : MediaPart} :
    MediaPart.reader ('(' :: content ++ [')'] ++ t) = .done part rest ↔
      ∃ r, group? ('(' :: (content ++ ')' :: t)) = some (r, rest) ∧ ofGroup r = part := by
  have htext : '(' :: content ++ [')'] ++ t = '(' :: (content ++ ')' :: t) := by simp
  have hname : ¬ ∃ n, Token.name ('(' :: (content ++ ')' :: t)) = .done n rest := by
    rintro ⟨n, hn⟩
    exact (refuses_name (endsName_cons (by decide) (by decide) _)).ne_done hn
  unfold MediaPart.reader
  rw [htext, either_eq_done_iff, map_eq_done_iff, map_eq_done_iff]
  simp only [group_eq_done_iff, ← group?_eq_some_iff]
  constructor
  · intro h
    rcases h with ⟨r, hr, hpart⟩ | ⟨-, n, hn, -⟩
    · exact ⟨r, hr, hpart⟩
    · exact absurd ⟨n, hn⟩ hname
  · intro h
    obtain ⟨r, hr, hpart⟩ := h
    exact .inl ⟨r, hr, hpart⟩

theorem WrittenAs.eq {part : MediaPart} {content content' : Text} (h : part.WrittenAs content)
    (h' : part.WrittenAs content') : content = content' := by
  have heq := h.render.symm.trans h'.render
  exact List.append_inj_left' (List.cons.inj heq).2 rfl

/-- If its parenthesis is escaped, a group is read with the parenthesis in it, and is then not the
same part. -/
theorem WrittenAs.escapesEnd_eq_false {part : MediaPart} {content t rest : Text}
    (h : part.WrittenAs content)
    (hread : MediaPart.reader ('(' :: content ++ [')'] ++ t) = .done part rest) :
    part.escapesEnd = false := by
  cases hodd : part.escapesEnd with
  | false => rfl
  | true =>
    rw [reader_group_iff] at hread
    obtain ⟨r, hr, hpart⟩ := hread
    have hbreak := breakBare_append_cons_of_pass h.passes (by rw [h.ends, hodd]) ')' t
    have hbalanced := (group?_eq_some_iff.mp hr).2
    obtain ⟨m, hm⟩ : ∃ m, r = content ++ ')' :: m := by
      rw [group?, hbreak] at hr
      split at hr
      · cases hr
      · next before c after heq =>
        simp only [Prod.mk.injEq, Option.some.injEq] at heq hr
        exact ⟨_, by rw [← hr.1, ← heq.1]⟩
    obtain ⟨content', hcontent', -, hcount⟩ := exists_writtenAs (hbalanced.pass 0)
    rw [hpart] at hcontent'
    have hparen := hcount ')' rfl
    rw [← h.eq hcontent', hm, List.count_append, List.count_cons] at hparen
    simp only [beq_self_eq_true, if_true] at hparen
    omega

theorem WellFormed.readsBack {part : MediaPart} (h : part.WellFormed) :
    ReadsBack MediaPart.reader MediaPart.render (fun part => part.escapesEnd = false) EndsName
      part := by
  intro t rest ht
  -- a part that is read back at all is read back up to its end
  have hread : part.escapesEnd = false → MediaPart.reader (part.render ++ t) = .done part t := by
    intro heven
    cases h with
    | keyword hn => exact reader_keyword hn ht
    | @group part content hcontent =>
      rw [hcontent.render, reader_group_iff]
      refine ⟨content, group?_eq_some_iff.mpr ⟨rfl, ?_⟩, hcontent.sorted⟩
      exact balanced_iff.mpr ⟨hcontent.passes, by rw [hcontent.ends, heven]⟩
  constructor
  · intro hpart
    have heven : part.escapesEnd = false := by
      cases h with
      | keyword _ => rfl
      | group hcontent =>
        rw [hcontent.render] at hpart
        exact hcontent.escapesEnd_eq_false hpart
    rw [hread heven] at hpart
    cases hpart
    exact ⟨heven, rfl⟩
  · intro hok
    rw [hok.2]
    exact hread hok.1

end MediaPart

/-! ## Queries -/

namespace MediaQuery

/-- A part with the gap before it. -/
def IsGapped (s : Text) (part : MediaPart) : Prop :=
  ∃ w u, s = w ++ u ∧ IsGap w ∧ MediaPart.IsPart u part

/-- Takes a part with the gap before it. -/
def partReader : Reader MediaPart := do
  Token.blank
  MediaPart.reader

theorem partReader_eq_done_iff {s rest : Text} {part : MediaPart} :
    partReader s = .done part rest ↔ MediaPart.reader (skipBlank s) = .done part rest := by
  unfold partReader
  simp only [bind_eq_done_iff, blank_eq_done_iff]
  constructor
  · intro h
    obtain ⟨_, _, rfl, h⟩ := h
    exact h
  · intro h
    exact ⟨(), _, rfl, h⟩

theorem partReader_sound : Sound IsGapped partReader := by
  intro s part rest h
  rw [partReader_eq_done_iff] at h
  obtain ⟨w, hw, hgap⟩ := exists_gap_append_skipBlank s
  obtain ⟨u, hu, hpart⟩ := MediaPart.reader_sound _ _ _ h
  exact ⟨w ++ u, by rw [hw, hu]; simp, w, u, rfl, hgap, hpart⟩

theorem progress_partReader : Progress partReader := by
  refine progress_of_sound partReader_sound ?_
  intro s part h
  obtain ⟨w, u, rfl, -, hu⟩ := h
  simp [hu.ne_nil]

/-- A query is one part or more. -/
theorem reader_eq_done_iff {s rest : Text} {q : MediaQuery} :
    MediaQuery.reader s = .done q rest ↔
      q.parts ≠ [] ∧ many partReader s = .done q.parts rest := by
  have hbind : MediaQuery.reader s = .done q rest ↔
      ∃ first others mid, q = ⟨first :: others⟩ ∧ partReader s = .done first mid ∧
        many partReader mid = .done others rest := by
    unfold MediaQuery.reader
    simp only [bind_eq_done_iff, blank_eq_done_iff, expecting_eq_done_iff, pure_eq_done_iff,
      partReader_eq_done_iff]
    constructor
    · intro h
      obtain ⟨_, _, rfl, first, mid, hfirst, others, _, hothers, rfl, rfl⟩ := h
      exact ⟨first, others, mid, rfl, hfirst, hothers⟩
    · intro h
      obtain ⟨first, others, mid, rfl, hfirst, hothers⟩ := h
      exact ⟨(), _, rfl, first, mid, hfirst, others, rest, hothers, rfl, rfl⟩
  rw [hbind]
  constructor
  · intro h
    obtain ⟨first, others, mid, rfl, hfirst, hothers⟩ := h
    exact ⟨by simp, (many_eq_done_cons_iff progress_partReader).mpr ⟨mid, hfirst, hothers⟩⟩
  · intro h
    obtain ⟨hne, hmany⟩ := h
    obtain ⟨parts⟩ := q
    cases parts with
    | nil => exact absurd rfl hne
    | cons first others =>
      obtain ⟨mid, hfirst, hothers⟩ := (many_eq_done_cons_iff progress_partReader).mp hmany
      exact ⟨first, others, mid, rfl, hfirst, hothers⟩

/-- Parts with a gap before each. -/
def IsQuery (u : Text) (q : MediaQuery) : Prop := q.parts ≠ [] ∧ Row IsGapped u q.parts

theorem IsGapped.ne_nil {s : Text} {part : MediaPart} (h : IsGapped s part) : s ≠ [] := by
  obtain ⟨w, u, rfl, -, hu⟩ := h
  simp [hu.ne_nil]

theorem reader_sound : Sound IsQuery MediaQuery.reader := by
  intro s q rest h
  obtain ⟨hne, hmany⟩ := reader_eq_done_iff.mp h
  obtain ⟨u, hs, hrow⟩ := many_sound partReader_sound (fun _ _ h => h.ne_nil) _ _ _ hmany
  exact ⟨u, hs, hne, hrow⟩

/-- What holds of every query that was read. -/
def WellFormed (q : MediaQuery) : Prop := q.parts ≠ [] ∧ ∀ part ∈ q.parts, part.WellFormed

theorem IsGapped.wellFormed {s : Text} {part : MediaPart} (h : IsGapped s part) :
    part.WellFormed := by
  obtain ⟨_, _, _, _, hpart⟩ := h
  exact hpart.wellFormed

theorem IsQuery.wellFormed {u : Text} {q : MediaQuery} (h : IsQuery u q) : q.WellFormed := by
  refine ⟨h.1, h.2.forall_mem ?_⟩
  intro s part hpart
  exact hpart.wellFormed

theorem render_cons (first : MediaPart) (others : List MediaPart) :
    MediaQuery.render ⟨first :: others⟩ =
      first.render ++ (others.map fun part => ' ' :: part.render).flatten := by
  rw [MediaQuery.render, List.map_cons, intercalate_singleton_cons, List.map_map]
  rfl

theorem IsGapped.respelled {s : Text} {part : MediaPart} (h : IsGapped s part) :
    Respelled s part.render := by
  obtain ⟨w, u, rfl, hw, hu⟩ := h
  exact hu.respelled.gap_append (hw.endsEscaping rfl)

theorem IsQuery.respelled {u : Text} {q : MediaQuery} (h : IsQuery u q) :
    Respelled u q.render := by
  obtain ⟨hne, hrow⟩ := h
  obtain ⟨parts⟩ := q
  cases hrow with
  | nil => exact absurd rfl hne
  | cons hfirst hothers =>
    rw [render_cons]
    exact hfirst.respelled.append (hothers.respelled fun u part hpart =>
      hpart.respelled.blank_append hpart.wellFormed.render_ne_nil)

/-! ## Queries that are written -/

/-- No part escapes the parenthesis that is written behind it. -/
def Restorable (q : MediaQuery) : Prop := ∀ part ∈ q.parts, part.escapesEnd = false

instance (q : MediaQuery) : Decidable q.Restorable :=
  inferInstanceAs (Decidable (∀ part ∈ q.parts, part.escapesEnd = false))

/-- The text goes on with nothing that belongs to a query that has begun. -/
def EndsQuery (t : Text) : Prop := EndsName t ∧ Refuses partReader t

theorem endsQuery_of_skipBlank {t : Text} (hname : EndsName t)
    (h : ∀ c, (skipBlank t).head? = some c → c = ',') : EndsQuery t := by
  refine ⟨hname, refuses_bind_of_done (a := ()) (blank_eq_done_iff.mpr rfl) ?_⟩
  cases hs : skipBlank t with
  | nil =>
    exact Refuses.either (Refuses.map (MediaPart.refuses_group (by simp)))
      (Refuses.map (refuses_name endsName_nil))
  | cons c s =>
    rw [hs] at h
    have hc := h c rfl
    subst hc
    exact Refuses.either (Refuses.map (MediaPart.refuses_group (by simp)))
      (Refuses.map (refuses_name (endsName_cons (by decide) (by decide) s)))

theorem endsQuery_nil : EndsQuery [] :=
  endsQuery_of_skipBlank endsName_nil fun c hc => by cases hc

theorem endsQuery_comma (t : Text) : EndsQuery (',' :: t) := by
  refine endsQuery_of_skipBlank (endsName_cons (by decide) (by decide) t) ?_
  intro c hc
  rw [show skipBlank (',' :: t) = ',' :: t from tight_cons (by decide) (by decide) t] at hc
  cases hc
  rfl

theorem readsBack_partReader {part : MediaPart} (h : part.WellFormed) {pad : Text}
    (hpad : IsGap pad) :
    ReadsBack partReader (fun part => pad ++ part.render) (fun part => part.escapesEnd = false)
      EndsName part := by
  intro t rest ht
  rw [partReader_eq_done_iff, List.append_assoc, skipBlank_append hpad (h.render_tight t)]
  exact h.readsBack t rest ht

theorem WellFormed.readsBack {q : MediaQuery} (h : q.WellFormed) :
    ReadsBack MediaQuery.reader MediaQuery.render Restorable EndsQuery q := by
  intro t rest ht
  obtain ⟨parts⟩ := q
  obtain ⟨hne, hparts⟩ := h
  rw [reader_eq_done_iff]
  cases parts with
  | nil => exact absurd rfl hne
  | cons first others =>
    have hblank : ∀ s, EndsName (' ' :: s) := endsName_cons (by decide) (by decide)
    have hothers : many partReader ((others.map fun part => [' '] ++ part.render).flatten ++ t) =
        .done others rest ↔ (∀ part ∈ others, part.escapesEnd = false) ∧ rest = t :=
      many_readsBack progress_partReader
        (fun part hpart => readsBack_partReader (hparts part (by simp [hpart])) (.char rfl .nil))
        (fun part _ s => hblank (part.render ++ s)) ht.1 ht.2 rest
    have hends : EndsName ((others.map fun part => [' '] ++ part.render).flatten ++ t) := by
      cases others with
      | nil => exact ht.1
      | cons second others => exact hblank _
    have hfirst := readsBack_partReader (hparts first (by simp)) .nil
    rw [render_cons, List.append_assoc]
    have hall := many_cons_readsBack progress_partReader hfirst hends hothers
    constructor
    · intro h
      exact hall.mp h.2
    · intro h
      exact ⟨hne, hall.mpr h⟩

end MediaQuery

/-! ## Lists of queries -/

namespace MediaQueryList

theorem render_cons (first : MediaQuery) (others : List MediaQuery) :
    MediaQueryList.render ⟨first :: others⟩ =
      first.render ++ (others.map fun q => ',' :: q.render).flatten := by
  rw [MediaQueryList.render, List.map_cons, intercalate_singleton_cons, List.map_map]
  rfl

theorem parse_eq_ok_iff {t : Text} {l : MediaQueryList} :
    MediaQueryList.parse t = .ok l ↔
      ∃ mid, separated Token.comma MediaQuery.reader t = .done l.queries mid ∧
        skipBlank mid = [] := by
  rw [MediaQueryList.parse, Reader.parseAs_eq_ok_iff, MediaQueryList.reader, then_blank_eq_done_iff]
  constructor
  · intro h
    obtain ⟨_, mid, hread, hend, rfl⟩ := h
    exact ⟨mid, hread, hend⟩
  · intro h
    obtain ⟨mid, hread, hend⟩ := h
    exact ⟨l.queries, mid, hread, hend, rfl⟩

theorem commaList_of_parse {t : Text} {l : MediaQueryList} (h : MediaQueryList.parse t = .ok l) :
    CommaList (Spaced MediaQuery.IsQuery) t l.queries := by
  obtain ⟨mid, hread, hmid⟩ := parse_eq_ok_iff.mp h
  obtain ⟨u, ht, hu⟩ := commaList_sound MediaQuery.reader_sound hread
  rw [hmid, List.append_nil] at ht
  rw [ht]
  exact hu

/-- What holds of every list of queries that was read. -/
def WellFormed (l : MediaQueryList) : Prop := l.queries ≠ [] ∧ ∀ q ∈ l.queries, q.WellFormed

theorem wellFormed_of_parse {t : Text} {l : MediaQueryList}
    (h : MediaQueryList.parse t = .ok l) : l.WellFormed := by
  have hlist := commaList_of_parse h
  constructor
  · obtain ⟨_, b, bs, hl, _⟩ := hlist.exists_cons
    rw [hl]
    simp
  · refine hlist.forall_mem ?_
    intro s q hs
    obtain ⟨_, _, _, hq, _⟩ := hs
    exact hq.wellFormed

theorem respelled_of_parse {t : Text} {l : MediaQueryList} (h : MediaQueryList.parse t = .ok l) :
    Respelled t l.render := by
  have hquery : ∀ s q, Spaced MediaQuery.IsQuery s q → Respelled s q.render :=
    fun s q hs => hs.respelled fun _ _ hq => hq.respelled
  rw [MediaQueryList.render]
  exact (commaList_of_parse h).respelled hquery fun _ _ _ _ _ h => h

/-- No part escapes the parenthesis that is written behind it. -/
def Restorable (l : MediaQueryList) : Prop := ∀ q ∈ l.queries, q.Restorable

instance (l : MediaQueryList) : Decidable l.Restorable :=
  inferInstanceAs (Decidable (∀ q ∈ l.queries, q.Restorable))

theorem readsBack_comma {q : MediaQuery} (h : q.WellFormed) :
    ReadsBack (do Token.comma; MediaQuery.reader) (fun q => ',' :: q.render)
      MediaQuery.Restorable MediaQuery.EndsQuery q := by
  intro t rest ht
  rw [bind_eq_done_iff]
  constructor
  · intro hread
    obtain ⟨_, mid, hcomma, hread⟩ := hread
    have hskip : skipBlank (',' :: (q.render ++ t)) = ',' :: (q.render ++ t) :=
      tight_cons (by decide) (by decide) _
    rw [comma_eq_done_iff, List.cons_append, hskip] at hcomma
    rw [← (List.cons.inj hcomma).2] at hread
    exact (h.readsBack t rest ht).mp hread
  · intro hok
    refine ⟨(), q.render ++ t, ?_, (h.readsBack t rest ht).mpr hok⟩
    rw [comma_eq_done_iff]
    exact tight_cons (by decide) (by decide) _

/-- A list of queries that was read is read back exactly if no part escapes its parenthesis. -/
theorem WellFormed.parse_render_iff {l : MediaQueryList} (h : l.WellFormed) :
    MediaQueryList.parse l.render = .ok l ↔ l.Restorable := by
  obtain ⟨queries⟩ := l
  obtain ⟨hne, hqueries⟩ := h
  rw [parse_eq_ok_iff]
  cases queries with
  | nil => exact absurd rfl hne
  | cons first others =>
    have hstop : Refuses (do Token.comma; MediaQuery.reader) [] :=
      Refuses.bind (refuses_comma (by decide))
    have hothers := many_readsBack (progress_comma MediaQuery.reader_sound)
      (fun q hq => readsBack_comma (hqueries q (List.mem_cons_of_mem first hq)))
      (fun q _ s => MediaQuery.endsQuery_comma (q.render ++ s)) MediaQuery.endsQuery_nil hstop
    have hends : MediaQuery.EndsQuery ((others.map fun q => ',' :: q.render).flatten ++ []) := by
      cases others with
      | nil => exact MediaQuery.endsQuery_nil
      | cons second others => exact MediaQuery.endsQuery_comma _
    have hfirst := fun mid => (hqueries first (by simp)).readsBack _ mid hends
    rw [render_cons, ← List.append_nil (List.flatten _)]
    constructor
    · intro h
      obtain ⟨mid, hread, -⟩ := h
      rw [separated_eq_done_iff] at hread
      obtain ⟨_, _, mid₁, heq, hread, hmany⟩ := hread
      cases heq
      obtain ⟨hok, rfl⟩ := (hfirst mid₁).mp hread
      intro q hq
      rcases List.mem_cons.mp hq with rfl | hq
      · exact hok
      · exact ((hothers mid).mp hmany).1 q hq
    · intro h
      have hread := (hfirst _).mpr ⟨h first (by simp), rfl⟩
      have hmany := (hothers []).mpr ⟨fun q hq => h q (by simp [hq]), rfl⟩
      exact ⟨[], separated_eq_done_iff.mpr ⟨first, others, _, rfl, hread, hmany⟩, rfl⟩

theorem WellFormed.render_tight {l : MediaQueryList} (h : l.WellFormed) : Tight l.render := by
  obtain ⟨queries⟩ := l
  obtain ⟨hne, hqueries⟩ := h
  cases queries with
  | nil => exact absurd rfl hne
  | cons first others =>
    obtain ⟨parts⟩ := first
    obtain ⟨hparts, hwf⟩ := hqueries ⟨parts⟩ (by simp)
    cases parts with
    | nil => exact absurd rfl hparts
    | cons part parts =>
      rw [MediaQueryList.render, List.map_cons, intercalate_singleton_cons, MediaQuery.render_cons,
        List.append_assoc]
      exact (hwf part (by simp)).render_tight _

/-- Trimming a written list of queries does no harm exactly if it does nothing. -/
theorem WellFormed.parse_trim_iff {l : MediaQueryList} (h : l.WellFormed) :
    MediaQueryList.parse (trim l.render) = .ok l ↔ trim l.render = l.render ∧ l.Restorable := by
  constructor
  · intro hparse
    have htrim := (respelled_of_parse hparse).trim_eq h.render_tight.head_ne_blank
    rw [htrim, h.parse_render_iff] at hparse
    exact ⟨htrim, hparse⟩
  · intro hok
    rw [hok.1, h.parse_render_iff]
    exact hok.2

end MediaQueryList

end FilterList.Css
