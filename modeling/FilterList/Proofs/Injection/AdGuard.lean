import FilterList.Proofs.Injection.Reading
set_option autoImplicit false

/-!
# Writing injections in the AdGuard form

The form puts a text before an opening brace, and reading it back cuts at the first bare brace and
trims.  What is cut off there holds fewer braces than what was written, or it is the same: so an
injection is read back exactly if nothing is cut or trimmed too early, and if the block and the
media queries survive on their own.
-/

namespace FilterList.Injection.AdGuard

open Css Text

/-! ## Text before a brace -/

/-- A text that leaves nothing open behind it, so that a brace that follows it is bare. -/
structure LeavesBare (s : Text) : Prop where
  closes : ClosesQuotations s
  even : endsEscaping s = false

theorem inert_avoiding {c : Char} (hc : isWhiteSpace c = true) : Inert (avoiding '{') c :=
  inert_of_isWhiteSpace hc fun _ => by simp [avoiding, ne_of_isWhiteSpace hc (d := '{') rfl]

theorem LeavesBare.trimStart {s : Text} (h : LeavesBare s) : LeavesBare (trimStart s) := by
  refine ⟨?_, by rw [endsEscaping_trimStart, h.even]⟩
  rw [ClosesQuotations, pass_trimStart fun c hc => inert_of_isWhiteSpace hc fun _ => rfl]
  exact h.closes

theorem LeavesBare.concat_blank {s : Text} (h : LeavesBare s) : LeavesBare (s ++ [' ']) := by
  refine ⟨?_, endsEscaping_concat_of_ne (by decide) s⟩
  rw [ClosesQuotations, pass_append_inert (inert_blank fun _ => rfl) () Quotation.proper_none]
  exact h.closes

theorem LeavesBare.blank_cons {s : Text} (h : LeavesBare s) : LeavesBare (' ' :: s) := by
  refine ⟨?_, by rw [endsEscaping_cons_of_ne (by decide), h.even]⟩
  have hpass := pass_inert_append (inert_blank (f := fun (_ : Unit) _ => some ()) fun _ => rfl) ()
    Quotation.proper_none s
  exact hpass.trans h.closes

/-- No bare brace stands in the text. -/
def NoBrace (s : Text) : Prop := cutBare '{' s = none

instance (s : Text) : Decidable (NoBrace s) := inferInstanceAs (Decidable (_ = _))

theorem noBrace_trimStart_iff {s : Text} : NoBrace (trimStart s) ↔ NoBrace s := by
  rw [NoBrace, NoBrace, cutBare_eq_none_iff, cutBare_eq_none_iff,
    pass_trimStart fun c hc => inert_avoiding hc]

theorem noBrace_concat_blank_iff {s : Text} : NoBrace (s ++ [' ']) ↔ NoBrace s := by
  rw [NoBrace, NoBrace, cutBare_eq_none_iff, cutBare_eq_none_iff,
    pass_append_inert (inert_blank fun _ => rfl) () Quotation.proper_none]

theorem noBrace_blank_cons_iff {s : Text} : NoBrace (' ' :: s) ↔ NoBrace s := by
  have hpass := pass_inert_append (inert_blank (f := avoiding '{') fun _ => rfl) ()
    Quotation.proper_none s
  rw [List.singleton_append] at hpass
  rw [NoBrace, NoBrace, cutBare_eq_none_iff, cutBare_eq_none_iff, hpass]

/-- The brace behind a text is found, unless the text has one itself. -/
theorem cutBare_head {head : Text} (h : LeavesBare head) (hnone : NoBrace head) (rest : Text) :
    cutBare '{' (head ++ '{' :: rest) = some ⟨head, rest⟩ :=
  cutBare_append_cons rfl hnone h.closes h.even rest

/-- A text with a brace of its own is cut there, and what is cut off lacks that brace. -/
theorem count_lt_of_cutBare {head rest : Text} (hsome : ¬ NoBrace head) {cut : Cut}
    (hcut : cutBare '{' (head ++ rest) = some cut) :
    cut.before.count '{' < head.count '{' := by
  cases hhead : cutBare '{' head with
  | none => exact absurd hhead hsome
  | some inner =>
    rw [cutBare_append rfl hhead, Option.some.injEq] at hcut
    subst hcut
    obtain ⟨htext, -, -⟩ := (cutBare_eq_some_iff rfl).mp hhead
    have hcount := congrArg (List.count '{') htext
    rw [List.count_append, List.count_cons_self] at hcount
    show inner.before.count '{' < head.count '{'
    omega

/-! ## The rule -/

theorem trim_block (s content : Text) :
    trim (s ++ ' ' :: ('{' :: content ++ ['}'])) =
      trimStart (s ++ [' ']) ++ '{' :: (content ++ ['}']) := by
  have htext : s ++ ' ' :: ('{' :: content ++ ['}']) =
      (s ++ [' ']) ++ '{' :: (content ++ ['}']) := by simp
  rw [htext, trim, trimStart_append_cons rfl]
  apply trimEnd_eq_self
  intro c hc
  have hlast : trimStart (s ++ [' ']) ++ '{' :: (content ++ ['}']) =
      (trimStart (s ++ [' ']) ++ '{' :: content) ++ ['}'] := by simp
  rw [hlast, List.getLast?_concat] at hc
  cases hc
  rfl

theorem braced_eq (head content : Text) :
    braced head content = head ++ ' ' :: ('{' :: (' ' :: content ++ [' ']) ++ ['}']) := by
  simp [braced]

theorem trim_braced (head content : Text) :
    trim (braced head content) =
      trimStart (head ++ [' ']) ++ '{' :: (' ' :: content ++ [' ', '}']) := by
  rw [braced_eq, trim_block]
  simp

theorem trim_head (head : Text) : trim (trimStart (head ++ [' '])) = trim head := by
  rw [trim_trimStart, trim_append_white allWhite_blank]

theorem noBrace_head_iff {s : Text} : NoBrace (trimStart (s ++ [' '])) ↔ NoBrace s := by
  rw [noBrace_trimStart_iff, noBrace_concat_blank_iff]

theorem splitRule_block {head : Text} (h : LeavesBare head) (hnone : NoBrace head)
    (media : Option Text) (content : Text) :
    splitRule media (trim (head ++ ' ' :: ('{' :: content ++ ['}']))) =
      some ⟨media, trim head, content⟩ := by
  have hcut := cutBare_head h.concat_blank.trimStart (noBrace_head_iff.mpr hnone) (content ++ ['}'])
  rw [splitRule_eq_some_iff, trim_block]
  exact ⟨_, hcut, rfl, rfl, (trim_head head).symm⟩

theorem splitRule_braced {head : Text} (h : LeavesBare head) (hnone : NoBrace head)
    (media : Option Text) (content : Text) :
    splitRule media (trim (braced head content)) =
      some ⟨media, trim head, ' ' :: content ++ [' ']⟩ := by
  rw [braced_eq, splitRule_block h hnone]

theorem count_lt_of_splitRule {head content : Text} (hsome : ¬ NoBrace head) {media : Option Text}
    {parts : Parts} (h : splitRule media (trim (braced head content)) = some parts) :
    parts.selectors.count '{' < head.count '{' := by
  obtain ⟨cut, hcut, -, -, hselectors⟩ := splitRule_eq_some_iff.mp h
  rw [trim_braced] at hcut
  have hlt := count_lt_of_cutBare (fun hnone => hsome (noBrace_head_iff.mp hnone)) hcut
  have hhead : (trimStart (head ++ [' '])).count '{' = head.count '{' := by
    rw [← count_trim rfl, trim_head, count_trim rfl]
  rw [hselectors, count_trim rfl, ← hhead]
  exact hlt

/-! ## What survives -/

/-- Cut off before a brace and trimmed, the text comes out as it is. -/
def Survives (head : Text) : Prop := trim head = head ∧ NoBrace head

instance (head : Text) : Decidable (Survives head) := inferInstanceAs (Decidable (_ ∧ _))

/-- The effect is read back: no value takes the semicolon behind it along, and no declaration of a
block asks for removal by itself. -/
def KeepsEffect : Effect → Prop
  | .remove => True
  | .style block => ∀ d ∈ block.declarations, d.escapesEnd = false ∧ asksRemoval d = false

instance : (effect : Effect) → Decidable (KeepsEffect effect)
  | .remove => isTrue trivial
  | .style block =>
    inferInstanceAs (Decidable (∀ d ∈ block.declarations, d.escapesEnd = false ∧
      asksRemoval d = false))

/-- The media queries are read back: they survive in front of the brace, and no part takes the
parenthesis behind it along. -/
def KeepsMedia : Option MediaQueryList → Prop
  | none => True
  | some list => Survives list.render ∧ list.Restorable

instance : (media : Option MediaQueryList) → Decidable (KeepsMedia media)
  | none => isTrue trivial
  | some list => inferInstanceAs (Decidable (Survives list.render ∧ list.Restorable))

/-- From its written form the injection is read back. -/
structure Restorable (i : Injection) : Prop where
  selectors : Survives (Selector.renderList i.selectors)
  effect : KeepsEffect i.effect
  media : KeepsMedia i.mediaQueries

instance (i : Injection) : Decidable (Restorable i) :=
  decidable_of_iff (Survives (Selector.renderList i.selectors) ∧ KeepsEffect i.effect ∧
    KeepsMedia i.mediaQueries) ⟨fun h => ⟨h.1, h.2.1, h.2.2⟩, fun h => ⟨h.1, h.2, h.3⟩⟩

/-- The block that a removal is written as. -/
def removal : Block := ⟨[⟨removeProperty, removeValue, false⟩]⟩

/-- The block that an effect is written as. -/
def blockOf : Effect → Block
  | .remove => removal
  | .style block => block

theorem renderEffect_eq (effect : Effect) :
    renderEffect effect = (blockOf effect).renderDeclarations := by
  cases effect with
  | remove => decide
  | style block => rfl

theorem removal_wellFormed : ∀ d ∈ removal.declarations, d.WellFormed := by
  have hparse : Block.parse "\x7bremove:true\x7d".toList = .ok removal :=
    Reader.parseAs_eq_ok_iff.mpr (by decide +kernel)
  exact Block.wellFormed_of_parse hparse

theorem blockOf_wellFormed {i : Injection} (hi : i.WellFormed) :
    (blockOf i.effect).declarations ≠ [] ∧
      ∀ d ∈ (blockOf i.effect).declarations, d.WellFormed := by
  cases heffect : i.effect with
  | remove => exact ⟨by simp [blockOf, removal], removal_wellFormed⟩
  | style block => exact hi.block block heffect

/-- What is written between the braces for an effect is read as that effect again if it
survives, and never else. -/
theorem effect_iff {i : Injection} (hi : i.WellFormed) (text : Text) :
    (∃ block, Block.parse ('{' :: (' ' :: renderEffect i.effect ++ [' ']) ++ ['}']) = .ok block ∧
        effectOf text block = .ok i.effect) ↔ KeepsEffect i.effect := by
  obtain ⟨hne, hwf⟩ := blockOf_wellFormed hi
  have hread := Block.parse_renderDeclarations_iff hne hwf (.inr rfl) (.inr rfl)
  rw [← renderEffect_eq] at hread
  constructor
  · intro h
    obtain ⟨block, hblock, heffect⟩ := h
    rcases effectOf_eq_ok_iff.mp heffect with ⟨hstyle, hnone⟩ | ⟨hremove, -⟩
    · rw [hstyle] at hread hblock ⊢
      have heven := hread.mp hblock
      intro d hd
      exact ⟨heven d hd, hnone d hd⟩
    · rw [hremove]
      trivial
  · intro h
    refine ⟨blockOf i.effect, hread.mpr ?_, effectOf_eq_ok_iff.mpr ?_⟩
    · cases heffect : i.effect with
      | remove => decide
      | style block =>
        rw [heffect] at h
        intro d hd
        exact (h d hd).1
    · cases heffect : i.effect with
      | remove => exact .inr ⟨rfl, _, rfl, by decide⟩
      | style block =>
        rw [heffect] at h
        exact .inl ⟨rfl, fun d hd => (h d hd).2⟩

/-! ## The whole form -/

theorem leavesBare_selectors {i : Injection} (hi : i.WellFormed) :
    LeavesBare (Selector.renderList i.selectors) := by
  obtain ⟨t, ht⟩ := hi.selectors
  have h := Selector.respelled_of_parseList ht
  exact ⟨h.closes, h.even⟩

/-- What is read back from a shorter text had no brace of its own. -/
theorem noBrace_of_respelled {u v : Text} (h : Respelled u v)
    (hlt : ¬ NoBrace v → u.count '{' < v.count '{') : NoBrace v := by
  by_cases hnone : NoBrace v
  · exact hnone
  · have hcount := hlt hnone
    have hle := h.count_le '{' (by decide) (by decide) (by decide)
    omega

/-- The parts that are found in the written form if nothing is cut too early. -/
def partsOf (i : Injection) : Parts where
  mediaQueries := i.mediaQueries.map fun list => trim list.render
  selectors := trim (Selector.renderList i.selectors)
  content := ' ' :: renderEffect i.effect ++ [' ']

theorem trim_content (content : Text) : trim (' ' :: content ++ [' ']) = trim content := by
  rw [trim_append_white allWhite_blank]
  exact trim_white_append allWhite_blank content

theorem isInjection_partsOf {i : Injection} (hi : i.WellFormed)
    (htrim : trim (Selector.renderList i.selectors) = Selector.renderList i.selectors) :
    (partsOf i).isInjection = true := by
  obtain ⟨t, ht⟩ := hi.selectors
  obtain ⟨c, v, hrender, -⟩ := Selector.exists_renderList_cons ht
  obtain ⟨hne, hwf⟩ := blockOf_wellFormed hi
  have hblank := Block.skipFiller_trim_renderDeclarations hne hwf
  rw [← renderEffect_eq, ← trim_content] at hblank
  have hselectors : (partsOf i).selectors = c :: v := htrim.trans hrender
  have hcontent : isBlankContent (trim (partsOf i).content) = false :=
    List.isEmpty_eq_false_iff.mpr hblank
  rw [Parts.isInjection, hselectors, hcontent]
  rfl

/-- With nothing cut too early, the injection is read back exactly if its parts survive. -/
theorem ofParts_partsOf_iff {i : Injection} (hi : i.WellFormed) (text : Text) :
    (partsOf i).isInjection = true ∧ ofParts text (partsOf i) = .ok i ↔
      trim (Selector.renderList i.selectors) = Selector.renderList i.selectors ∧
        KeepsEffect i.effect ∧
          ∀ list, i.mediaQueries = some list →
            trim list.render = list.render ∧ list.Restorable := by
  obtain ⟨t, ht⟩ := hi.selectors
  have hmedia : parseMediaQueries (partsOf i).mediaQueries = .ok i.mediaQueries ↔
      ∀ list, i.mediaQueries = some list → trim list.render = list.render ∧ list.Restorable := by
    cases hm : i.mediaQueries with
    | none => simp [partsOf, hm, parseMediaQueries]
    | some list =>
      obtain ⟨t', ht'⟩ := hi.media list hm
      have hwf := MediaQueryList.wellFormed_of_parse ht'
      rw [parseMediaQueries_eq_ok_iff]
      simp only [partsOf, hm, Option.map_some, reduceCtorEq, false_and, false_or,
        Option.some.injEq, forall_eq']
      rw [← hwf.parse_trim_iff]
      constructor
      · intro h
        obtain ⟨_, _, rfl, rfl, h⟩ := h
        exact h
      · intro h
        exact ⟨_, _, rfl, rfl, h⟩
  rw [ofParts_eq_ok_iff, hmedia, ← Selector.parseList_trim_iff ht]
  constructor
  · intro h
    exact ⟨h.2.2.1, (effect_iff hi text).mp h.2.2.2, h.2.1⟩
  · intro h
    have htrim := (Selector.parseList_trim_iff ht).mp h.1
    exact ⟨isInjection_partsOf hi htrim, h.2.2, h.1, (effect_iff hi text).mpr h.2.1⟩

/-! ### Without media queries -/

theorem render_of_none {i : Injection} (h : i.mediaQueries = none) :
    AdGuard.render i = braced (Selector.renderList i.selectors) (renderEffect i.effect) := by
  simp only [AdGuard.render, h]

theorem split_of_none {text : Text} (h : after? mediaWord (trim text) = none) :
    split text = splitRule none (trim text) := by
  simp only [split, h]

theorem mediaQueries_of_split {text : Text} {parts : Parts} (h : split text = some parts)
    (hmedia : after? mediaWord (trim text) ≠ none) : parts.mediaQueries ≠ none := by
  unfold split at h
  cases hafter : after? mediaWord (trim text) with
  | none => exact absurd hafter hmedia
  | some rest =>
    simp only [hafter, Option.bind_eq_bind, Option.bind_eq_some_iff] at h
    obtain ⟨cut, -, inner, -, hrule⟩ := h
    obtain ⟨_, -, -, hparts, -⟩ := splitRule_eq_some_iff.mp hrule
    rw [hparts]
    simp

/-- A text that gave no media queries does not begin with their word. -/
theorem after?_eq_none_of_split {text : Text} {parts : Parts} (h : split text = some parts)
    (hread : parseMediaQueries parts.mediaQueries = .ok none) :
    after? mediaWord (trim text) = none := by
  cases hafter : after? mediaWord (trim text) with
  | none => rfl
  | some rest =>
    have hsome := mediaQueries_of_split h (by rw [hafter]; simp)
    rcases parseMediaQueries_eq_ok_iff.mp hread with ⟨hnone, -⟩ | ⟨_, _, -, heq, -⟩
    · exact absurd hnone hsome
    · cases heq

theorem after?_mediaWord {s : Text} (h : s.head? ≠ some '@') : after? mediaWord s = none := by
  have hword : mediaWord = '@' :: "media".toList := by decide
  cases s with
  | nil =>
    rw [hword]
    rfl
  | cons c s =>
    have hc : '@' ≠ c := fun e => h (by rw [e]; rfl)
    rw [hword, after?, if_neg hc]

/-- A text of selectors is not empty and does not begin with `@`. -/
theorem exists_cons_of_parseList {t : Text} {list : List Selector}
    (h : Selector.parseList t = .ok list) : ∃ c v, t = c :: v ∧ c ≠ '@' := by
  have hfirst : ∃ u v, t = u ++ v ∧
      ∃ selector, IsSelector (IsArgumentList maxNesting) false u selector := by
    have hlist := Selector.parseList_eq_ok_iff.mp h
    cases hlist with
    | one hspaced =>
      obtain ⟨u, w, rfl, hu, -⟩ := hspaced
      exact ⟨u, w, rfl, _, hu⟩
    | cons hspaced _ =>
      obtain ⟨u, w, rfl, hu, -⟩ := hspaced
      exact ⟨u, _, List.append_assoc _ _ _, _, hu⟩
  obtain ⟨u, v, rfl, selector, hu⟩ := hfirst
  obtain @⟨w, l, u, lead, nodes, hw, hlead, hcomplex⟩ := hu
  obtain ⟨c, x, rfl, hc⟩ := hcomplex.exists_cons
  cases hlead with
  | sign hrel _ _ => cases hrel
  | absent =>
    cases w with
    | nil =>
      refine ⟨c, x ++ v, by simp, ?_⟩
      rintro rfl
      exact absurd hc (by decide)
    | cons d w =>
      refine ⟨d, w ++ [] ++ c :: x ++ v, by simp, ?_⟩
      rintro rfl
      exact absurd hw.head (by decide)

/-- In front of a block, a text of selectors is no media rule. -/
theorem after?_trim_block {s : Text} {list : List Selector}
    (h : Selector.parseList (trim s) = .ok list) (content : Text) :
    after? mediaWord (trim (s ++ ' ' :: ('{' :: content ++ ['}']))) = none := by
  obtain ⟨c, v, htrim, hc⟩ := exists_cons_of_parseList h
  have hend := trimEnd_append (trimStart (s ++ [' ']))
  rw [← trim, ← trim_trimStart, trim_head, htrim] at hend
  rw [trim_block, ← hend]
  apply after?_mediaWord
  rw [List.append_assoc, List.cons_append, List.head?_cons]
  exact fun e => hc (Option.some.inj e)

theorem after?_trim_braced {t : Text} {list : List Selector} (h : Selector.parseList t = .ok list)
    (htrim : trim (Selector.renderList list) = Selector.renderList list) (content : Text) :
    after? mediaWord (trim (braced (Selector.renderList list) content)) = none := by
  have hread : Selector.parseList (trim (Selector.renderList list)) = .ok list := by
    rw [htrim]
    exact Selector.parseList_renderList h
  rw [braced_eq]
  exact after?_trim_block hread _

/-! ### With media queries -/

theorem render_of_some {i : Injection} {list : MediaQueryList} (h : i.mediaQueries = some list) :
    AdGuard.render i = braced (mediaWord ++ ' ' :: list.render)
      (braced (Selector.renderList i.selectors) (renderEffect i.effect)) := by
  simp only [AdGuard.render, h]

theorem split_media_iff {media rule : Text} {parts : Parts} :
    split (braced (mediaWord ++ ' ' :: media) rule) = some parts ↔
      ∃ cut inner,
        cutBare '{' (' ' :: (media ++ [' ']) ++ '{' :: (' ' :: rule ++ [' ', '}'])) = some cut ∧
          cut.after = inner ++ ['}'] ∧
            splitRule (some (trim cut.before)) (trim inner) = some parts := by
  have hword : mediaWord = '@' :: "media".toList := by decide
  have hstart : trimStart (mediaWord ++ ' ' :: media ++ [' ']) =
      mediaWord ++ ' ' :: media ++ [' '] := by
    refine trimStart_eq_self fun c hc => ?_
    rw [hword] at hc
    cases hc
    rfl
  have htrim : trim (braced (mediaWord ++ ' ' :: media) rule) =
      mediaWord ++ (' ' :: (media ++ [' ']) ++ '{' :: (' ' :: rule ++ [' ', '}'])) := by
    rw [trim_braced, hstart]
    simp
  unfold split
  simp only [htrim, after?_append, Option.bind_eq_bind, Option.bind_eq_some_iff,
    beforeFinal?_eq_some_iff]
  constructor
  · intro h
    obtain ⟨cut, hcut, inner, hinner, hrule⟩ := h
    exact ⟨cut, inner, hcut, hinner, hrule⟩
  · intro h
    obtain ⟨cut, inner, hcut, hinner, hrule⟩ := h
    exact ⟨cut, hcut, inner, hinner, hrule⟩

theorem split_media_of_noBrace {media : Text} (h : LeavesBare media) (hnone : NoBrace media)
    {rule : Text} {parts : Parts} :
    split (braced (mediaWord ++ ' ' :: media) rule) = some parts ↔
      splitRule (some (trim media)) (trim rule) = some parts := by
  have hhead : NoBrace (' ' :: (media ++ [' '])) :=
    noBrace_blank_cons_iff.mpr (noBrace_concat_blank_iff.mpr hnone)
  have hcut := cutBare_head h.concat_blank.blank_cons hhead (' ' :: rule ++ [' ', '}'])
  have htrim : trim (' ' :: (media ++ [' '])) = trim media := trim_content media
  have hinner : ' ' :: rule ++ [' ', '}'] = (' ' :: rule ++ [' ']) ++ ['}'] := by simp
  rw [split_media_iff, hcut]
  constructor
  · intro h
    obtain ⟨cut, inner, heq, hafter, hrule⟩ := h
    cases heq
    rw [hinner] at hafter
    rw [← List.append_inj_left' hafter rfl, htrim, trim_content] at hrule
    exact hrule
  · intro h
    refine ⟨_, ' ' :: rule ++ [' '], rfl, hinner, ?_⟩
    rw [htrim, trim_content]
    exact h

theorem count_lt_of_split_media {media rule : Text} (hsome : ¬ NoBrace media) {parts : Parts}
    (h : split (braced (mediaWord ++ ' ' :: media) rule) = some parts) :
    ∃ t, parts.mediaQueries = some t ∧ t.count '{' < media.count '{' := by
  obtain ⟨cut, inner, hcut, -, hrule⟩ := split_media_iff.mp h
  obtain ⟨-, -, -, hmedia, -⟩ := splitRule_eq_some_iff.mp hrule
  have hlt := count_lt_of_cutBare (fun hnone =>
    hsome (noBrace_concat_blank_iff.mp (noBrace_blank_cons_iff.mp hnone))) hcut
  refine ⟨_, hmedia, ?_⟩
  rw [count_trim rfl]
  rw [List.count_cons_of_ne (by decide), List.count_append] at hlt
  simpa using hlt

/-! ### In either case -/

/-- Nothing that was written stands in the way of cutting the text where it was put together. -/
structure Uncut (i : Injection) : Prop where
  unheaded : i.mediaQueries = none → after? mediaWord (trim (AdGuard.render i)) = none
  selectors : NoBrace (Selector.renderList i.selectors)
  media : ∀ list, i.mediaQueries = some list → NoBrace list.render

theorem split_render_of_uncut {i : Injection} (hi : i.WellFormed) (h : Uncut i) :
    split (AdGuard.render i) = some (partsOf i) := by
  have hbare := leavesBare_selectors hi
  cases hm : i.mediaQueries with
  | none =>
    rw [split_of_none (h.unheaded hm), render_of_none hm, splitRule_braced hbare h.selectors,
      partsOf, hm]
    rfl
  | some list =>
    obtain ⟨t, ht⟩ := hi.media list hm
    have hrespelled := MediaQueryList.respelled_of_parse ht
    rw [render_of_some hm,
      split_media_of_noBrace ⟨hrespelled.closes, hrespelled.even⟩ (h.media list hm),
      splitRule_braced hbare h.selectors, partsOf, hm]
    rfl

/-- Had the text been cut too early, the parts would hold too few braces to be read as what was
written. -/
theorem uncut_of_split {i : Injection} (hi : i.WellFormed) {parts : Parts}
    (hsplit : split (AdGuard.render i) = some parts)
    (hread : ofParts (AdGuard.render i) parts = .ok i) : Uncut i := by
  obtain ⟨hmedia, hselectors, -⟩ := ofParts_eq_ok_iff.mp hread
  have hrespelled := Selector.respelled_of_parseList hselectors
  cases hm : i.mediaQueries with
  | none =>
    rw [hm] at hmedia
    have hafter := after?_eq_none_of_split hsplit hmedia
    rw [split_of_none hafter, render_of_none hm] at hsplit
    exact ⟨fun _ => hafter,
      noBrace_of_respelled hrespelled fun hsome => count_lt_of_splitRule hsome hsplit,
      fun list h => nomatch hm.symm.trans h⟩
  | some list =>
    rw [hm] at hmedia
    rw [render_of_some hm] at hsplit
    obtain ⟨t, ht⟩ := hi.media list hm
    have hbare := MediaQueryList.respelled_of_parse ht
    have hmediaNone : NoBrace list.render := by
      rcases parseMediaQueries_eq_ok_iff.mp hmedia with ⟨-, hnone⟩ | ⟨_, _, hpart, heq, hparse⟩
      · cases hnone
      · cases heq
        refine noBrace_of_respelled (MediaQueryList.respelled_of_parse hparse) fun hsome => ?_
        obtain ⟨_, hpart', hlt⟩ := count_lt_of_split_media hsome hsplit
        rw [hpart] at hpart'
        cases hpart'
        exact hlt
    rw [split_media_of_noBrace ⟨hbare.closes, hbare.even⟩ hmediaNone] at hsplit
    refine ⟨fun h => (nomatch hm.symm.trans h),
      noBrace_of_respelled hrespelled fun hsome => count_lt_of_splitRule hsome hsplit, ?_⟩
    intro l hl
    obtain rfl := Option.some.inj (hm.symm.trans hl)
    exact hmediaNone

theorem keepsMedia_iff {media : Option MediaQueryList} :
    KeepsMedia media ↔ (∀ list, media = some list → NoBrace list.render) ∧
      ∀ list, media = some list → trim list.render = list.render ∧ list.Restorable := by
  cases media with
  | none => simp [KeepsMedia]
  | some list => simp [KeepsMedia, Survives, and_left_comm, and_assoc]

theorem Restorable.uncut {i : Injection} (hi : i.WellFormed) (h : Restorable i) : Uncut i := by
  refine ⟨fun hm => ?_, h.selectors.2, (keepsMedia_iff.mp h.media).1⟩
  obtain ⟨t, ht⟩ := hi.selectors
  rw [render_of_none hm]
  exact after?_trim_braced ht h.selectors.1 _

theorem getLast?_render (i : Injection) : (trim (AdGuard.render i)).getLast? = some '}' := by
  have hbraced : ∀ head content, (trim (braced head content)).getLast? = some '}' := by
    intro head content
    have hlast : trimStart (head ++ [' ']) ++ '{' :: (' ' :: content ++ [' ', '}']) =
        (trimStart (head ++ [' ']) ++ '{' :: (' ' :: content ++ [' '])) ++ ['}'] := by simp
    rw [trim_braced, hlast, List.getLast?_concat]
  cases hm : i.mediaQueries with
  | none =>
    rw [render_of_none hm]
    exact hbraced _ _
  | some list =>
    rw [render_of_some hm]
    exact hbraced _ _

theorem parse_render_iff {i : Injection} (hi : i.WellFormed) :
    Injection.parse (AdGuard.render i) = .ok (some i) ↔ Restorable i := by
  rw [parse_of_brace (getLast?_render i), parse_eq_ok_iff]
  constructor
  · intro h
    obtain ⟨parts, hsplit, hinj, hread⟩ := h
    have huncut := uncut_of_split hi hsplit hread
    obtain rfl := Option.some.inj (hsplit.symm.trans (split_render_of_uncut hi huncut))
    obtain ⟨htrim, heffect, hmedia⟩ := (ofParts_partsOf_iff hi _).mp ⟨hinj, hread⟩
    exact ⟨⟨htrim, huncut.selectors⟩, heffect, keepsMedia_iff.mpr ⟨huncut.media, hmedia⟩⟩
  · intro h
    have hparts := (ofParts_partsOf_iff hi (AdGuard.render i)).mpr
      ⟨h.selectors.1, h.effect, (keepsMedia_iff.mp h.media).2⟩
    exact ⟨partsOf i, split_render_of_uncut hi (h.uncut hi), hparts⟩

/-- An injection that was read, in either form, is read back from its AdGuard form exactly if it is
restorable. -/
theorem parse_render_iff_restorable (raw : Text) (i : Injection)
    (h : Injection.parse raw = .ok (some i)) :
    convert .adGuard raw = .ok (some (AdGuard.render i)) ∧
      (Injection.parse (AdGuard.render i) = .ok (some i) ↔ Restorable i) := by
  constructor
  · rw [convert, h]
    rfl
  · exact parse_render_iff (Injection.wellFormed_of_parse h)

/-- The first text gives a declaration whose value escapes the semicolon that is written behind
it; the second one does not. -/
theorem parse_render_iff_restorable_escape :
    (∃ i, Injection.parse "a \x7b b: \\ \x7d".toList = .ok (some i) ∧
      convert .adGuard "a \x7b b: \\ \x7d".toList = .ok (some "a \x7b b: \\; \x7d".toList) ∧
      Injection.parse "a \x7b b: \\; \x7d".toList ≠ .ok (some i)) ∧
    ∃ i, Injection.parse "a \x7b b: c \x7d".toList = .ok (some i) ∧
      convert .adGuard "a \x7b b: c \x7d".toList = .ok (some "a \x7b b: c; \x7d".toList) ∧
      Injection.parse "a \x7b b: c; \x7d".toList = .ok (some i) := by
  constructor
  · have hread : Injection.parse "a \x7b b: \\ \x7d".toList =
        .ok (some ⟨none, [⟨[.type ['a']]⟩], .style ⟨[⟨['b'], ['\\'], false⟩]⟩⟩) := by
      decide +kernel
    obtain ⟨hconvert, hiff⟩ := parse_render_iff_restorable _ _ hread
    refine ⟨_, hread, hconvert, fun hback => ?_⟩
    exact absurd (hiff.mp hback) (by decide +kernel)
  · have hread : Injection.parse "a \x7b b: c \x7d".toList =
        .ok (some ⟨none, [⟨[.type ['a']]⟩], .style ⟨[⟨['b'], ['c'], false⟩]⟩⟩) := by
      decide +kernel
    obtain ⟨hconvert, hiff⟩ := parse_render_iff_restorable _ _ hread
    exact ⟨_, hread, hconvert, hiff.mpr (by decide +kernel)⟩

end FilterList.Injection.AdGuard
