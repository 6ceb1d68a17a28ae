import FilterList.Proofs.Css.Block
set_option autoImplicit false

/-!
# Blocks are read by their grammar

Between the braces of a block stand declarations, with a semicolon behind each but perhaps the
last, and filler wherever a declaration may begin: blanks, closed comments and more semicolons.
A declaration is a name, a gap, a colon and a value.  Where a value ends is a matter of the value
alone: it is a value if a semicolon behind it would end it there.

The grammar does not say how far a value or a filler reaches; that the reader stops at the intended
places, whatever follows them, is what is proved here.
-/

namespace FilterList.Css

open Token Reader Text

namespace Declaration

/-! ## Values -/

/-- A text is a value if the scan passes it and comes to rest outside of brackets, quotations and
escapes. -/
theorem spanValue_semicolon_iff {written : Text} :
    (spanValue (written ++ [';'])).1 = written ↔
      pass valueStep 0 none written = some (0, none) ∧ endsEscaping written = false := by
  constructor
  · intro h
    have happ : (spanValue (written ++ [';'])).1 ++ (spanValue (written ++ [';'])).2 =
        written ++ [';'] := breakBare_append valueStep 0 none _
    rw [h, List.append_cancel_left_eq] at happ
    have hspan : spanValue (written ++ [';']) = (written, [';']) := Prod.ext h happ
    exact pass_of_spanValue hspan
  · intro h
    rw [spanValue_append h.1 h.2 (.inl rfl)]

/-- Where a semicolon ends a value, so does anything that ends values, with any text behind it. -/
theorem spanValue_append_of_semicolon {written : Text}
    (h : (spanValue (written ++ [';'])).1 = written) {c : Char} (hc : c = ';' ∨ c = '}')
    (t : Text) : spanValue (written ++ c :: t) = (written, c :: t) := by
  rw [spanValue_semicolon_iff] at h
  exact spanValue_append h.1 h.2 hc t

/-! ## Declarations -/

theorem name_self {n : Text} (hn : IsName n) : Token.name n = .done n [] := by
  have hread := name_complete hn endsName_nil
  rwa [List.append_nil] at hread

/-- A declaration as it stands in a block, without what ends it. -/
structure Source where
  property : Text
  /-- what stands between the property and the colon -/
  gap : Text
  /-- all that stands behind the colon -/
  written : Text
  name_eq : Token.name property = .done property []
  isGap : IsGap gap
  ends : (spanValue (written ++ [';'])).1 = written
  filled : (splitImportant written).1 = [] → isCustomProperty property = true

namespace Source

/-- The text of a declaration. -/
def text (d : Source) : Text := d.property ++ d.gap ++ ':' :: d.written

/-- What the text says. -/
def declaration (d : Source) : Declaration :=
  ⟨d.property, (splitImportant d.written).1, (splitImportant d.written).2⟩

theorem isName (d : Source) : IsName d.property := (name_sound d.name_eq).2.1

end Source

theorem reader_text (d : Source) {c : Char} (hc : c = ';' ∨ c = '}') (t : Text) :
    Declaration.reader (d.text ++ c :: t) = .done d.declaration (c :: t) := by
  have htext : d.text ++ c :: t = d.property ++ (d.gap ++ ':' :: (d.written ++ c :: t)) := by
    simp [Source.text]
  have hcolon : ∀ s : Text, Tight (':' :: s) := tight_cons (by decide) (by decide)
  have hends : ∀ s : Text, EndsName (':' :: s) := endsName_cons (by decide) (by decide)
  have hspan := spanValue_append_of_semicolon d.ends hc t
  rw [htext, reader_eq_done_iff]
  refine ⟨_, _, name_complete d.isName ((hends _).gap_append d.isGap),
    skipBlank_append d.isGap (hcolon _), ?value, ?rest, ?filled⟩
  case value => rw [hspan]; rfl
  case rest => rw [hspan]
  case filled =>
    by_cases hvalue : (splitImportant d.written).1 = []
    · exact .inr (d.filled hvalue)
    · exact .inl hvalue

theorem exists_source_of_reader {s rest : Text} {c : Char} {d : Declaration}
    (h : Declaration.reader s = .done d (c :: rest)) :
    ∃ source : Source, s = source.text ++ c :: rest ∧ source.declaration = d := by
  rw [reader_eq_done_iff] at h
  obtain ⟨mid, t, hname, hcolon, hsplit, hrest, hfilled⟩ := h
  obtain ⟨hs, hproperty, -⟩ := name_sound hname
  obtain ⟨w, hw, hgap⟩ := exists_gap_append_skipBlank mid
  have hspan : spanValue t = ((spanValue t).1, c :: rest) := Prod.ext rfl hrest
  have happ : (spanValue t).1 ++ (spanValue t).2 = t := breakBare_append valueStep 0 none t
  refine ⟨{
    property := d.property
    gap := w
    written := (spanValue t).1
    name_eq := name_self hproperty
    isGap := hgap
    ends := spanValue_semicolon_iff.mpr (pass_of_spanValue hspan)
    filled := ?filled }, ?text, ?declaration⟩
  case filled =>
    intro hvalue
    rw [hsplit] at hvalue
    exact hfilled.resolve_left (not_not_intro hvalue)
  case text =>
    rw [hs, hw, hcolon, Source.text, ← hrest]
    simp [happ]
  case declaration =>
    show Declaration.mk d.property (splitImportant (spanValue t).1).1
      (splitImportant (spanValue t).1).2 = d
    rw [hsplit]

/-! ## What stands between the braces -/

theorem Source.text_head (d : Source) (t : Text) :
    skipFiller (d.text ++ t) = d.text ++ t ∧ beginsWith '}' (d.text ++ t) = false := by
  have htext : d.text ++ t = d.property ++ (d.gap ++ ':' :: (d.written ++ t)) := by
    simp [Source.text]
  rw [htext]
  exact ⟨skipFiller_name d.isName _, beginsWith_name d.isName _⟩

theorem itemReader_append {f : Text} (hf : IsFiller f) (d : Source) {c : Char}
    (hc : c = ';' ∨ c = '}') {t rest : Text} (hend : endReader (c :: t) = .done () rest) :
    itemReader (f ++ (d.text ++ c :: t)) = .done d.declaration rest := by
  obtain ⟨hskip, hbrace⟩ := d.text_head (c :: t)
  rw [itemReader_eq_done_iff, skipFiller_append hf, hskip]
  exact ⟨hbrace, c :: t, reader_text d hc t, hend⟩

theorem exists_source_of_itemReader {s rest : Text} {d : Declaration}
    (h : itemReader s = .done d rest) :
    ∃ f source, IsFiller f ∧ Source.declaration source = d ∧
      (s = f ++ source.text ++ ';' :: rest ∨
        ∃ t, s = f ++ source.text ++ '}' :: t ∧ rest = '}' :: t) := by
  rw [itemReader_eq_done_iff] at h
  obtain ⟨-, mid, hread, hend⟩ := h
  obtain ⟨f, hs, hf⟩ := exists_gaps_append_skipGaps isFiller s
  rw [← skipFiller] at hs
  rw [endReader_eq_done_iff] at hend
  rcases hend with rfl | ⟨t, rfl, rfl⟩
  · obtain ⟨source, hsource, hd⟩ := exists_source_of_reader hread
    exact ⟨f, source, hf, hd, .inl (by rw [hs, hsource, List.append_assoc])⟩
  · obtain ⟨source, hsource, hd⟩ := exists_source_of_reader hread
    exact ⟨f, source, hf, hd, .inr ⟨t, by rw [hs, hsource, List.append_assoc], rfl⟩⟩

/-- What stands between the braces of a block, and the declarations in it. -/
inductive IsContent : Text → List Declaration → Prop
  | filler {f : Text} : IsFiller f → IsContent f []
  | last {f : Text} (d : Source) : IsFiller f → IsContent (f ++ d.text) [d.declaration]
  | cons {f u : Text} {ds : List Declaration} (d : Source) : IsFiller f → IsContent u ds →
      IsContent (f ++ d.text ++ ';' :: u) (d.declaration :: ds)

theorem many_nil_of_filler {f : Text} (hf : IsFiller f) (t : Text) :
    many itemReader (f ++ '}' :: t) = .done [] (f ++ '}' :: t) :=
  (many_eq_done_nil_iff progress_itemReader).mpr ⟨rfl, Block.refuses_close hf t⟩

theorem many_itemReader_complete {u : Text} {ds : List Declaration} (h : IsContent u ds)
    (t : Text) :
    ∃ mid, many itemReader (u ++ '}' :: t) = .done ds mid ∧ skipFiller mid = '}' :: t := by
  have hbrace : skipFiller ('}' :: t) = '}' :: t := skipGaps_cons (by decide) t
  induction h with
  | @filler f hf =>
    refine ⟨f ++ '}' :: t, many_nil_of_filler hf t, ?_⟩
    rw [skipFiller_append hf, hbrace]
  | @last f d hf =>
    have hitem := itemReader_append hf d (.inr rfl) (t := t) (endReader_eq_done_iff.mpr
      (.inr ⟨t, rfl, rfl⟩))
    refine ⟨'}' :: t, ?_, hbrace⟩
    rw [List.append_assoc, many_eq_done_cons_iff progress_itemReader]
    exact ⟨'}' :: t, hitem, many_nil_of_filler .nil t⟩
  | @cons f u ds d hf _ ih =>
    obtain ⟨mid, hmany, hmid⟩ := ih
    have hitem := itemReader_append hf d (.inl rfl) (t := u ++ '}' :: t)
      (endReader_eq_done_iff.mpr (.inl rfl))
    have htext : f ++ d.text ++ ';' :: u ++ '}' :: t =
        f ++ (d.text ++ ';' :: (u ++ '}' :: t)) := by simp
    refine ⟨mid, ?_, hmid⟩
    rw [htext, many_eq_done_cons_iff progress_itemReader]
    exact ⟨u ++ '}' :: t, hitem, hmany⟩

theorem many_itemReader_sound {s mid t : Text} {ds : List Declaration}
    (h : many itemReader s = .done ds mid) (hmid : skipFiller mid = '}' :: t) :
    ∃ u, s = u ++ '}' :: t ∧ IsContent u ds := by
  induction ds generalizing s with
  | nil =>
    rw [many_eq_done_nil_iff progress_itemReader] at h
    obtain ⟨rfl, -⟩ := h
    obtain ⟨f, hs, hf⟩ := exists_gaps_append_skipGaps isFiller mid
    rw [← skipFiller, hmid] at hs
    exact ⟨f, hs, .filler hf⟩
  | cons d ds ih =>
    rw [many_eq_done_cons_iff progress_itemReader] at h
    obtain ⟨rest, hitem, hmany⟩ := h
    obtain ⟨f, source, hf, rfl, rfl | ⟨r, rfl, rfl⟩⟩ := exists_source_of_itemReader hitem
    · obtain ⟨u, rfl, hu⟩ := ih hmany
      exact ⟨f ++ source.text ++ ';' :: u, by simp, .cons source hf hu⟩
    · -- nothing is read at the brace that closes the block
      have hnil := many_nil_of_filler .nil r
      rw [List.nil_append, hmany] at hnil
      cases hnil
      have hbrace : skipFiller ('}' :: r) = '}' :: r := skipGaps_cons (by decide) r
      rw [hbrace] at hmid
      cases hmid
      exact ⟨f ++ source.text, rfl, .last source hf⟩

end Declaration

namespace Block

/-! ## Whole blocks -/

/-- A whole text that is a block. -/
inductive IsBlockText : Text → Block → Prop
  | mk {w u w' : Text} {ds : List Declaration} : IsGap w → Declaration.IsContent u ds → IsGap w' →
      IsBlockText (w ++ '{' :: u ++ '}' :: w') ⟨ds⟩

/-- A text is read as a block exactly when it is a word of the grammar for it. -/
theorem parse_eq_ok_iff_isBlockText {t : Text} {b : Block} :
    Block.parse t = .ok b ↔ IsBlockText t b := by
  rw [Block.parse, Reader.parseAs_eq_ok_iff, reader_eq_done_iff]
  constructor
  · intro h
    obtain ⟨s, mid, r, hopen, hmany, hclose, hr⟩ := h
    obtain ⟨w, hw, hgap⟩ := exists_gap_append_skipBlank t
    obtain ⟨u, hu, hcontent⟩ := Declaration.many_itemReader_sound hmany hclose
    obtain ⟨w', hw', hgap'⟩ := exists_gap_append_skipBlank r
    rw [hr, List.append_nil] at hw'
    have htext : t = w ++ '{' :: u ++ '}' :: w' := by
      rw [hw, hopen, hu, ← hw']
      simp
    rw [htext]
    exact .mk hgap hcontent (hw' ▸ hgap')
  · intro h
    obtain @⟨w, u, w', ds, hw, hu, hw'⟩ := h
    obtain ⟨mid, hmany, hmid⟩ := Declaration.many_itemReader_complete hu w'
    have hopen : skipBlank (w ++ '{' :: (u ++ '}' :: w')) = '{' :: (u ++ '}' :: w') :=
      skipBlank_append hw (tight_cons (by decide) (by decide) _)
    have hclose : skipBlank w' = [] := by
      have hskip := skipBlank_append hw' tight_nil
      rwa [List.append_nil] at hskip
    exact ⟨u ++ '}' :: w', mid, w', by simpa using hopen, hmany, hmid, hclose⟩

end Block

/-! ## Layout

The same declarations may be laid out in many ways.  All of them are read alike. -/

namespace Declaration

/-- A declaration in a block, with the semicolon behind it and the filler up to the next one. -/
structure Item where
  source : Source
  filler : Text
  isFiller : IsFiller filler

/-- The text of an item. -/
def Item.text (i : Item) : Text := i.source.text ++ ';' :: i.filler

/-- The declaration of an item. -/
def Item.declaration (i : Item) : Declaration := i.source.declaration

theorem IsContent.filler_append {f u : Text} {ds : List Declaration} (h : IsContent u ds)
    (hf : IsFiller f) : IsContent (f ++ u) ds := by
  cases h with
  | filler hu => exact .filler (hf.append hu)
  | last d hu =>
    rw [← List.append_assoc]
    exact .last d (hf.append hu)
  | cons d hu hrest =>
    rw [← List.append_assoc, ← List.append_assoc]
    exact .cons d (hf.append hu) hrest

theorem IsContent.items_append {u : Text} {ds : List Declaration} (h : IsContent u ds)
    (items : List Item) :
    IsContent ((items.map Item.text).flatten ++ u) (items.map Item.declaration ++ ds) := by
  induction items with
  | nil => exact h
  | cons i items ih =>
    have hcons := IsContent.cons i.source .nil (ih.filler_append i.isFiller)
    simpa [Item.text, Item.declaration] using hcons

end Declaration

namespace Block

open Declaration

/-- Gaps around the block and filler between its declarations do not change what is read, and
neither does it matter whether a semicolon, and filler behind it, follows the last declaration. -/
theorem parse_layout {w f w' : Text} (hw : IsGap w) (hf : IsFiller f) (hw' : IsGap w')
    (items : List Item) :
    Block.parse (w ++ '{' :: (f ++ (items.map Item.text).flatten) ++ '}' :: w') =
        .ok ⟨items.map Item.declaration⟩ ∧
      ∀ (init : List Item) (last : Item), items = init ++ [last] →
        Block.parse
            (w ++ '{' :: (f ++ (init.map Item.text).flatten ++ last.source.text) ++ '}' :: w') =
          .ok ⟨items.map Item.declaration⟩ := by
  constructor
  · have hitems := (IsContent.filler .nil).items_append items
    rw [List.append_nil, List.append_nil] at hitems
    exact parse_eq_ok_iff_isBlockText.mpr (.mk hw (hitems.filler_append hf) hw')
  · intro init last hsplit
    have hlast : IsContent last.source.text [last.declaration] := .last last.source .nil
    rw [hsplit, List.map_append, List.append_assoc f]
    exact parse_eq_ok_iff_isBlockText.mpr
      (.mk hw ((hlast.items_append init).filler_append hf) hw')

/-- A brace and a colon stand in comments, the value hides a semicolon and a brace in a string and
another brace in brackets, and the custom property has no value. -/
theorem parse_layout_comments :
    let block : Block :=
      ⟨[⟨"--x".toList, [], false⟩, ⟨['a'], "b(';\x7d'\x7d)".toList, true⟩]⟩
    Block.parse "/*\x7b*/\x7b;--x: ;;a/*:*/:b(';\x7d'\x7d) ! IMPORTANT;\x7d ".toList = .ok block ∧
      Block.parse "/*\x7b*/\x7b;--x: ;;a/*:*/:b(';\x7d'\x7d) ! IMPORTANT\x7d ".toList =
        .ok block := by
  intro block
  let custom : Source := ⟨"--x".toList, [], [' '], by decide, .nil, by decide, by decide⟩
  let flagged : Source :=
    ⟨['a'], "/*:*/".toList, "b(';\x7d'\x7d) ! IMPORTANT".toList, by decide,
      @Gaps.comment _ [':'] [] (by decide) .nil, by decide, by decide⟩
  have hbefore : IsGap "/*\x7b*/".toList := @Gaps.comment _ ['\x7b'] [] (by decide) .nil
  have hfiller : IsFiller [';'] := .char rfl .nil
  have hbehind : IsGap [' '] := .char rfl .nil
  obtain ⟨hended, hopen⟩ := parse_layout hbefore hfiller hbehind
    [⟨custom, [';'], hfiller⟩, ⟨flagged, [], .nil⟩]
  exact ⟨hended, hopen [⟨custom, [';'], hfiller⟩] ⟨flagged, [], .nil⟩ rfl⟩

end Block

/-! ## The declarations that are read -/

namespace Declaration

theorem inert_pad : ∀ c ∈ [' '], Inert valueStep c := inert_blank fun _ => rfl

/-- With a blank behind it, so that it escapes nothing, a value that was read is a value again. -/
theorem spanValue_pad_iff {value : Text} :
    (spanValue (value ++ [' ', ';'])).1 = value ++ [' '] ↔
      pass valueStep 0 none value = some (0, none) := by
  have htext : value ++ [' ', ';'] = value ++ [' '] ++ [';'] := by simp
  rw [htext, spanValue_semicolon_iff, pass_append_inert inert_pad 0 Quotation.proper_none]
  exact and_iff_left (endsEscaping_concat_of_ne (by decide) value)

theorem wellFormed_iff {d : Declaration} :
    d.WellFormed ↔
      Token.name d.property = .done d.property [] ∧ trim d.value = d.value ∧
        (d.value = [] → isCustomProperty d.property = true) ∧
        (d.important = false → splitImportant d.value = (d.value, false)) ∧
        (spanValue (d.value ++ [' ', ';'])).1 = d.value ++ [' '] := by
  rw [spanValue_pad_iff]
  constructor
  · intro h
    exact ⟨name_self h.name, h.trimmed, fun hnil => h.filled.resolve_left (not_not_intro hnil),
      h.plain, h.passes⟩
  · intro h
    obtain ⟨hname, htrimmed, hfilled, hplain, hpasses⟩ := h
    exact ⟨(name_sound hname).2.1, hpasses, htrimmed, hplain, Decidable.not_or_of_imp hfilled⟩

/-- Every well-formed declaration can be written so that it is read as it is. -/
theorem WellFormed.exists_source {d : Declaration} (hd : d.WellFormed) :
    ∃ source : Source, source.declaration = d := by
  -- the blank behind the value is for a value that ends in a backslash
  have hsplit : splitImportant (d.renderValue ++ [' ']) = (d.value, d.important) := by
    rw [splitImportant_congr (trim_append_white allWhite_blank d.renderValue),
      splitImportant_renderValue hd]
  have hends : (spanValue (d.renderValue ++ [' '] ++ [';'])).1 = d.renderValue ++ [' '] := by
    rw [spanValue_semicolon_iff, pass_append_inert inert_pad 0 Quotation.proper_none]
    exact ⟨pass_renderValue hd, endsEscaping_concat_of_ne (by decide) d.renderValue⟩
  refine ⟨{
    property := d.property
    gap := []
    written := d.renderValue ++ [' ']
    name_eq := name_self hd.name
    isGap := .nil
    ends := hends
    filled := ?filled }, ?declaration⟩
  case filled =>
    intro hnil
    rw [hsplit] at hnil
    exact hd.filled.resolve_left (not_not_intro hnil)
  case declaration =>
    show Declaration.mk d.property (splitImportant (d.renderValue ++ [' '])).1
      (splitImportant (d.renderValue ++ [' '])).2 = d
    rw [hsplit]

theorem WellFormed.exists_parse {d : Declaration} (hd : d.WellFormed) :
    ∃ t, Block.parse t = .ok ⟨[d]⟩ := by
  obtain ⟨source, rfl⟩ := hd.exists_source
  have hcontent : IsContent ([] ++ source.text) [source.declaration] := .last source .nil
  exact ⟨_, Block.parse_eq_ok_iff_isBlockText.mpr (.mk .nil hcontent .nil)⟩

/-- Which declarations are read from some text.  The name of the property is one name, the value is
trimmed, has an end of its own, and is empty only for a custom property.  Only where the flag is not
set it is certain that the value does not end in one: of several flags one is taken off. -/
theorem exists_parse_iff_invariant (d : Declaration) :
    (∃ t b, Block.parse t = .ok b ∧ d ∈ b.declarations) ↔
      Token.name d.property = .done d.property [] ∧ trim d.value = d.value ∧
        (d.value = [] → isCustomProperty d.property = true) ∧
        (d.important = false → splitImportant d.value = (d.value, false)) ∧
        (spanValue (d.value ++ [' ', ';'])).1 = d.value ++ [' '] := by
  rw [← wellFormed_iff]
  constructor
  · intro h
    obtain ⟨t, b, hparse, hd⟩ := h
    exact Block.wellFormed_of_parse hparse d hd
  · intro h
    obtain ⟨t, hparse⟩ := h.exists_parse
    exact ⟨t, ⟨[d]⟩, hparse, List.mem_singleton_self d⟩

/-- The flag is given twice, and the value keeps the first one. -/
theorem exists_parse_iff_invariant_flags :
    let d : Declaration := ⟨['a'], "b !important".toList, true⟩
    Block.parse "\x7b a: b !important !important \x7d".toList = .ok ⟨[d]⟩ ∧
      splitImportant d.value = (['b'], true) ∧ trim d.value = d.value ∧
      ∃ t b, Block.parse t = .ok b ∧ d ∈ b.declarations := by
  intro d
  have hparse : Block.parse "\x7b a: b !important !important \x7d".toList = .ok ⟨[d]⟩ :=
    Reader.parseAs_eq_ok_iff.mpr (by decide +kernel)
  obtain ⟨-, htrimmed, -⟩ :=
    (exists_parse_iff_invariant d).mp ⟨_, _, hparse, List.mem_singleton_self d⟩
  have hread := (exists_parse_iff_invariant d).mpr
    ⟨by decide, by decide, by decide, by decide, by decide⟩
  exact ⟨hparse, by decide, htrimmed, hread⟩

end Declaration

end FilterList.Css
