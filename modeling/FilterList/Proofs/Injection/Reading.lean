import FilterList.Injection.Convert
import FilterList.Proofs.Css.Block
import FilterList.Proofs.Css.MediaQuery
import FilterList.Proofs.Css.Selector.RoundTrip
import FilterList.Proofs.Outcome
set_option autoImplicit false

/-!
# What a style injection was read from

Whatever form an injection was read from, its selectors and its media queries were read from some
texts, and so was its block, which is not empty.  A text can have at most one of the two forms:
the one ends with a brace, the other with a parenthesis.
-/

namespace FilterList.Injection

open Css Text

/-! ## Reading that may fail -/

theorem parseSelectors_eq_ok_iff {text : Text} {list : List Selector} :
    parseSelectors text = .ok list ↔ Selector.parseList text = .ok list := mapError_eq_ok_iff

theorem parseContent_eq_ok_iff {content : Text} {b : Block} :
    parseContent content = .ok b ↔ Block.parse ('{' :: content ++ ['}']) = .ok b :=
  mapError_eq_ok_iff

/-! ## The AdGuard form -/

namespace AdGuard

theorem parseMediaQueries_eq_ok_iff {text : Option Text} {list : Option MediaQueryList} :
    parseMediaQueries text = .ok list ↔
      (text = none ∧ list = none) ∨
        ∃ t l, text = some t ∧ list = some l ∧ MediaQueryList.parse t = .ok l := by
  cases text with
  | none => simp [parseMediaQueries, eq_comm]
  | some t =>
    rw [parseMediaQueries, mapError_eq_ok_iff, map_eq_ok_iff]
    constructor
    · intro h
      obtain ⟨l, hl, rfl⟩ := h
      exact .inr ⟨t, l, rfl, rfl, hl⟩
    · intro h
      rcases h with ⟨h, -⟩ | ⟨_, l, heq, rfl, hl⟩
      · cases h
      · cases heq
        exact ⟨l, hl, rfl⟩

theorem ofParts_eq_ok_iff {text : Text} {parts : Parts} {i : Injection} :
    ofParts text parts = .ok i ↔
      parseMediaQueries parts.mediaQueries = .ok i.mediaQueries ∧
        Selector.parseList parts.selectors = .ok i.selectors ∧
          ∃ block, Block.parse ('{' :: parts.content ++ ['}']) = .ok block ∧
            effectOf text block = .ok i.effect := by
  unfold ofParts
  simp only [bind_eq_ok_iff, parseSelectors_eq_ok_iff, parseContent_eq_ok_iff]
  constructor
  · intro h
    obtain ⟨media, hmedia, selectors, hselectors, block, hblock, effect, heffect, hi⟩ := h
    cases hi
    exact ⟨hmedia, hselectors, block, hblock, heffect⟩
  · intro h
    obtain ⟨hmedia, hselectors, block, hblock, heffect⟩ := h
    exact ⟨_, hmedia, _, hselectors, block, hblock, _, heffect, rfl⟩

theorem parts?_eq_some_iff {text : Text} {parts : Parts} :
    parts? text = some parts ↔ split text = some parts ∧ parts.isInjection = true := by
  rw [parts?, Option.filter_eq_some_iff]

theorem parse_eq_ok_iff {text : Text} {i : Injection} :
    AdGuard.parse text = .ok i ↔
      ∃ parts, split text = some parts ∧ parts.isInjection = true ∧
        ofParts text parts = .ok i := by
  simp only [← and_assoc, ← parts?_eq_some_iff]
  unfold AdGuard.parse
  cases parts? text with
  | none => simp
  | some parts => simp

/-- A block is a style if nothing in it asks for removal, and removes the elements if what asks for
removal stands alone in it; otherwise a removal is mixed with other declarations, or asked for
again. -/
theorem effectOf_cases (text : Text) (block : Block) :
    (block.declarations.countP asksRemoval = 0 ∧ effectOf text block = .ok (.style block)) ∨
      (block.declarations.countP asksRemoval = 1 ∧ block.declarations.length = 1 ∧
        effectOf text block = .ok .remove) ∨
      (block.declarations.countP asksRemoval = 1 ∧ 1 < block.declarations.length ∧
        effectOf text block = .error (.mixedRemoval text)) ∨
      (2 ≤ block.declarations.countP asksRemoval ∧
        effectOf text block = .error (.repeatedRemoval text)) := by
  have hle : block.declarations.countP asksRemoval ≤ block.declarations.length :=
    List.countP_le_length
  rw [effectOf]
  split
  · next hnone => exact .inl ⟨hnone, rfl⟩
  · next hone =>
    by_cases hlength : block.declarations.length = 1
    · exact .inr (.inl ⟨hone, hlength, if_pos hlength⟩)
    · have hmore : 1 < block.declarations.length := by omega
      exact .inr (.inr (.inl ⟨hone, hmore, if_neg hlength⟩))
  · next hnone hone =>
    have hzero : block.declarations.countP asksRemoval ≠ 0 := hnone
    have hsingle : block.declarations.countP asksRemoval ≠ 1 := hone
    exact .inr (.inr (.inr ⟨by omega, rfl⟩))

/-- What asks for removal stands alone exactly if it and the declarations both number one. -/
theorem asksRemoval_alone_iff {declarations : List Declaration} :
    (declarations.countP asksRemoval = 1 ∧ declarations.length = 1) ↔
      ∃ d, declarations = [d] ∧ asksRemoval d = true := by
  constructor
  · intro h
    obtain ⟨d, rfl⟩ := List.length_eq_one_iff.mp h.2
    exact ⟨d, rfl, by simpa using h.1⟩
  · intro h
    obtain ⟨d, rfl, hasks⟩ := h
    exact ⟨by simp [hasks], rfl⟩

theorem effectOf_eq_ok_iff {text : Text} {block : Block} {effect : Effect} :
    effectOf text block = .ok effect ↔
      (effect = .style block ∧ ∀ d ∈ block.declarations, asksRemoval d = false) ∨
        (effect = .remove ∧ ∃ d, block.declarations = [d] ∧ asksRemoval d = true) := by
  have hnone : (∀ d ∈ block.declarations, asksRemoval d = false) ↔
      block.declarations.countP asksRemoval = 0 := by
    simp [List.countP_eq_zero]
  rw [hnone, ← asksRemoval_alone_iff]
  rcases effectOf_cases text block with
    ⟨hk, heffect⟩ | ⟨hk, hn, heffect⟩ | ⟨hk, hn, heffect⟩ | ⟨hk, heffect⟩
  · simp [heffect, hk, eq_comm]
  · simp [heffect, hk, hn, eq_comm]
  · have hmany : block.declarations.length ≠ 1 := by omega
    simp [heffect, hk, hmany]
  · have hzero : block.declarations.countP asksRemoval ≠ 0 := by omega
    have hsingle : block.declarations.countP asksRemoval ≠ 1 := by omega
    simp only [heffect, hzero, hsingle, and_false, false_and, or_false, reduceCtorEq]

theorem splitRule_eq_some_iff {media : Option Text} {text : Text} {parts : Parts} :
    splitRule media text = some parts ↔
      ∃ cut, cutBare '{' text = some cut ∧ cut.after = parts.content ++ ['}'] ∧
        parts.mediaQueries = media ∧ parts.selectors = trim cut.before := by
  unfold splitRule
  simp only [Option.bind_eq_bind, Option.bind_eq_some_iff, Option.pure_def, Option.some.injEq,
    beforeFinal?_eq_some_iff]
  constructor
  · intro h
    obtain ⟨cut, hcut, content, hcontent, rfl⟩ := h
    exact ⟨cut, hcut, hcontent, rfl, rfl⟩
  · intro h
    obtain ⟨cut, hcut, hcontent, rfl, hselectors⟩ := h
    refine ⟨cut, hcut, _, hcontent, ?_⟩
    rw [← hselectors]

theorem splitRule_ends {media : Option Text} {text : Text} {parts : Parts}
    (h : splitRule media text = some parts) : text.getLast? = some '}' := by
  obtain ⟨cut, hcut, hafter, -, -⟩ := splitRule_eq_some_iff.mp h
  obtain ⟨htext, -, -⟩ := (cutBare_eq_some_iff rfl).mp hcut
  rw [htext, hafter, ← List.cons_append, ← List.append_assoc, List.getLast?_concat]

theorem split_ends {text : Text} {parts : Parts} (h : split text = some parts) :
    (trim text).getLast? = some '}' := by
  unfold split at h
  cases hmedia : after? mediaWord (trim text) with
  | none =>
    simp only [hmedia] at h
    exact splitRule_ends h
  | some rest =>
    simp only [hmedia, Option.bind_eq_bind, Option.bind_eq_some_iff, beforeFinal?_eq_some_iff] at h
    obtain ⟨cut, hcut, inner, hinner, -⟩ := h
    obtain ⟨hrest, -, -⟩ := (cutBare_eq_some_iff rfl).mp hcut
    rw [eq_append_of_after? hmedia, hrest, hinner, ← List.cons_append, ← List.append_assoc,
      ← List.append_assoc, List.getLast?_concat]

end AdGuard

/-! ## The uBlock Origin form -/

namespace UblockOrigin

theorem Mark.read?_eq_some {text group : Text} {mark : Mark}
    (h : Mark.read? text = some (mark, group)) :
    text = mark.render ++ group ∧ ∃ g, group = '(' :: g := by
  unfold Mark.read? at h
  split at h
  · next rest hstyle =>
    cases h
    exact ⟨by rw [eq_append_of_after? hstyle]; simp, rest, rfl⟩
  · split at h
    · next rest hremove =>
      cases h
      exact ⟨by rw [eq_append_of_after? hremove]; simp, rest, rfl⟩
    · cases h

theorem cutLastMark_escape (depth : Nat) (q : Quotation) (c : Char) (s : Text) :
    cutLastMark depth q ('\\' :: c :: s) =
      (cutLastMark depth q s).map fun cut => (cut.shift c).shift '\\' := by
  rw [cutLastMark]

/-- At a bare character the last mark is one behind it, or else one that begins there. -/
theorem cutLastMark_bare {q : Quotation} {c : Char} (hb : q.bare c = true) (depth : Nat)
    (s : Text) :
    cutLastMark depth q (c :: s) =
      ((cutLastMark (depthAfter depth c) q s).map (MarkCut.shift c)).or
        (if depth = 0 then (Mark.read? (c :: s)).map fun r => ⟨[], r.1, r.2⟩ else none) := by
  have hc : c ≠ '\\' := by
    rintro rfl
    simp [Quotation.bare] at hb
  rw [cutLastMark.eq_3 depth q c s fun _ _ h _ => hc h, if_pos hb]
  cases cutLastMark (depthAfter depth c) q s with
  | some cut => rfl
  | none => rfl

theorem cutLastMark_hidden {q : Quotation} {c : Char} (hc : c ≠ '\\') (hb : q.bare c = false)
    (depth : Nat) (s : Text) :
    cutLastMark depth q (c :: s) = (cutLastMark depth (q.next c) s).map (MarkCut.shift c) := by
  rw [cutLastMark.eq_3 depth q c s fun _ _ h _ => hc h, if_neg (by simp [hb])]

/-- What a mark cuts off, as a text. -/
def MarkCut.text (cut : MarkCut) : Text := cut.before ++ cut.mark.render ++ cut.group

@[simp] theorem MarkCut.text_shift (c : Char) (cut : MarkCut) :
    (cut.shift c).text = c :: cut.text := rfl

/-- Nothing is lost by cutting at a mark, and a group opens behind it. -/
theorem cutLastMark_eq_some {depth : Nat} {q : Quotation} {s : Text} {cut : MarkCut}
    (h : cutLastMark depth q s = some cut) : s = cut.text ∧ ∃ g, cut.group = '(' :: g := by
  induction s using escapeInduction generalizing depth q cut with
  | nil => simp [cutLastMark] at h
  | lone => simp [cutLastMark, Quotation.bare] at h
  | escape c s ih =>
    rw [cutLastMark_escape, Option.map_eq_some_iff] at h
    obtain ⟨inner, hinner, rfl⟩ := h
    obtain ⟨hs, hg⟩ := ih hinner
    exact ⟨by simp [← hs], hg⟩
  | char c s hc ih =>
    cases hb : q.bare c with
    | true =>
      rw [cutLastMark_bare hb, Option.or_eq_some_iff, Option.map_eq_some_iff] at h
      rcases h with ⟨inner, hinner, rfl⟩ | ⟨-, h⟩
      · obtain ⟨hs, hg⟩ := ih hinner
        exact ⟨by simp [← hs], hg⟩
      · split at h
        · rw [Option.map_eq_some_iff] at h
          obtain ⟨⟨mark, group⟩, hread, rfl⟩ := h
          exact Mark.read?_eq_some hread
        · cases h
    | false =>
      rw [cutLastMark_hidden hc hb, Option.map_eq_some_iff] at h
      obtain ⟨inner, hinner, rfl⟩ := h
      obtain ⟨hs, hg⟩ := ih hinner
      exact ⟨by simp [← hs], hg⟩

theorem ofParts_eq_ok_iff {parts : Parts} {i : Injection} :
    ofParts parts = .ok i ↔
      i.mediaQueries = none ∧ Selector.parseList parts.selectors = .ok i.selectors ∧
        effectOf parts.mark parts.content = .ok i.effect := by
  unfold ofParts
  simp only [bind_eq_ok_iff, parseSelectors_eq_ok_iff]
  constructor
  · intro h
    obtain ⟨selectors, hselectors, effect, heffect, hi⟩ := h
    cases hi
    exact ⟨rfl, hselectors, heffect⟩
  · intro h
    obtain ⟨hmedia, hselectors, heffect⟩ := h
    refine ⟨_, hselectors, _, heffect, ?_⟩
    obtain ⟨media, selectors, effect⟩ := i
    rw [show media = none from hmedia]
    rfl

theorem effectOf_eq_ok_iff {mark : Mark} {content : Text} {effect : Effect} :
    effectOf mark content = .ok effect ↔
      (mark = .remove ∧ effect = .remove) ∨
        ∃ block, mark = .style ∧ effect = .style block ∧
          Block.parse ('{' :: content ++ ['}']) = .ok block := by
  cases mark with
  | remove => simp [effectOf, eq_comm]
  | style =>
    rw [effectOf, map_eq_ok_iff]
    constructor
    · intro h
      obtain ⟨block, hblock, rfl⟩ := h
      exact .inr ⟨block, rfl, rfl, parseContent_eq_ok_iff.mp hblock⟩
    · intro h
      rcases h with ⟨h, -⟩ | ⟨block, -, rfl, hblock⟩
      · cases h
      · exact ⟨block, parseContent_eq_ok_iff.mpr hblock, rfl⟩

theorem parts?_eq_some_iff {text : Text} {parts : Parts} :
    parts? text = some parts ↔ split text = some parts ∧ parts.isInjection = true := by
  rw [parts?, Option.filter_eq_some_iff]

theorem parse_eq_ok_iff {text : Text} {i : Injection} :
    UblockOrigin.parse text = .ok (some i) ↔
      ∃ parts, split text = some parts ∧ parts.isInjection = true ∧ ofParts parts = .ok i := by
  simp only [← and_assoc, ← parts?_eq_some_iff]
  unfold UblockOrigin.parse
  cases parts? text with
  | none => simp
  | some parts => simp [map_eq_ok_iff]

theorem split_eq_some_iff {text : Text} {parts : Parts} :
    split text = some parts ↔
      ∃ cut content, cutLastMark 0 none (trim text) = some cut ∧
        group? cut.group = some (content, []) ∧
          parts = ⟨trim cut.before, cut.mark, trim content⟩ := by
  unfold split
  simp only [Option.bind_eq_bind, Option.bind_eq_some_iff]
  constructor
  · intro h
    obtain ⟨cut, hcut, ⟨content, rest⟩, hgroup, h⟩ := h
    cases rest with
    | nil =>
      cases h
      exact ⟨cut, content, hcut, hgroup, rfl⟩
    | cons c rest => cases h
  · intro h
    obtain ⟨cut, content, hcut, hgroup, rfl⟩ := h
    exact ⟨cut, hcut, ⟨content, []⟩, hgroup, rfl⟩

theorem split_ends {text : Text} {parts : Parts} (h : split text = some parts) :
    (trim text).getLast? = some ')' := by
  obtain ⟨cut, content, hcut, hgroup, -⟩ := split_eq_some_iff.mp h
  obtain ⟨hgroup, -⟩ := group?_eq_some_iff.mp hgroup
  rw [(cutLastMark_eq_some hcut).1, MarkCut.text, hgroup, ← List.append_assoc, List.getLast?_concat]

end UblockOrigin

/-! ## Blank content -/

/-- Content is blank if skipping goes through all of it. -/
theorem isBlankContent_iff_isFiller {content : Text} :
    isBlankContent content = true ↔ Declaration.IsFiller content := by
  rw [isBlankContent, List.isEmpty_iff]
  constructor
  · intro h
    obtain ⟨g, hcontent, hg⟩ := Token.exists_gaps_append_skipGaps Token.isFiller content
    rw [← Token.skipFiller, h, List.append_nil] at hcontent
    rw [hcontent]
    exact hg
  · intro h
    have hskip := Declaration.skipFiller_append h []
    rwa [List.append_nil] at hskip

/-- Content is blank exactly if the block around it is read, and read as one without
declarations. -/
theorem isBlankContent_iff_parse_empty (content : Text) :
    isBlankContent content = true ↔
      ∃ block, Block.parse ('{' :: content ++ ['}']) = .ok block ∧ block.declarations = [] := by
  rw [isBlankContent_iff_isFiller, Block.parse_braced_empty_iff]

/-- A brace and a semicolon stand in a comment; of the next content the comment is not closed, and
the last one holds a blank that is none in a style sheet. -/
example : isBlankContent "; /*\x7d;*/;".toList = true ∧ isBlankContent "/*/".toList = false ∧
    isBlankContent "\u00a0".toList = false := by decide

/-! ## What holds of every injection that was read -/

/-- The selectors and the media queries were read from some texts, and so was the block, which is
not empty. -/
structure WellFormed (i : Injection) : Prop where
  selectors : ∃ t, Selector.parseList t = .ok i.selectors
  block : ∀ b, i.effect = .style b → b.declarations ≠ [] ∧ ∀ d ∈ b.declarations, d.WellFormed
  media : ∀ l, i.mediaQueries = some l → ∃ t, MediaQueryList.parse t = .ok l

theorem gaps_of_white_append {gap : Char → Bool} {x s : Text} (hx : AllWhite x)
    (h : Token.Gaps gap (x ++ s)) : Token.Gaps gap s := by
  induction x with
  | nil => exact h
  | cons c x ih =>
    have hc : c ≠ '/' := ne_of_isWhiteSpace (hx c (by simp)) rfl
    exact ih (fun d hd => hx d (by simp [hd])) (h.of_cons hc)

theorem gaps_of_append_white {gap : Char → Bool} {s y : Text} (hy : AllWhite y)
    (h : Token.Gaps gap (s ++ y)) : Token.Gaps gap s := by
  induction y generalizing s with
  | nil => simpa using h
  | cons c y ih =>
    have hc : c ≠ '/' := ne_of_isWhiteSpace (hy c (by simp)) rfl
    have hsplit : s ++ c :: y = (s ++ [c]) ++ y := by simp
    rw [hsplit] at h
    exact (ih (fun d hd => hy d (by simp [hd])) h).of_concat hc

theorem gaps_trim {gap : Char → Bool} {s : Text} (h : Token.Gaps gap s) :
    Token.Gaps gap (trim s) := by
  obtain ⟨x, y, hs, hx, hy⟩ := exists_eq_append_trim s
  rw [hs] at h
  exact gaps_of_white_append hx (gaps_of_append_white hy h)

theorem AdGuard.wellFormed_of_parse {text : Text} {i : Injection}
    (h : AdGuard.parse text = .ok i) : i.WellFormed := by
  obtain ⟨parts, -, hinj, hparts⟩ := AdGuard.parse_eq_ok_iff.mp h
  obtain ⟨hmedia, hselectors, block, hblock, heffect⟩ := AdGuard.ofParts_eq_ok_iff.mp hparts
  refine ⟨⟨_, hselectors⟩, ?_, ?_⟩
  · intro b hb
    rw [hb, AdGuard.effectOf_eq_ok_iff] at heffect
    rcases heffect with ⟨hstyle, -⟩ | ⟨hremove, -⟩
    · cases hstyle
      refine ⟨?_, Block.wellFormed_of_parse hblock⟩
      intro hnil
      have hblank :=
        isBlankContent_iff_isFiller.mpr (gaps_trim (Block.gaps_of_parse_empty hblock hnil))
      simp [AdGuard.Parts.isInjection, hblank] at hinj
    · cases hremove
  · intro l hl
    rw [hl, AdGuard.parseMediaQueries_eq_ok_iff] at hmedia
    rcases hmedia with ⟨-, hnone⟩ | ⟨t, _, -, hsome, hparse⟩
    · cases hnone
    · cases hsome
      exact ⟨t, hparse⟩

theorem UblockOrigin.wellFormed_of_parse {text : Text} {i : Injection}
    (h : UblockOrigin.parse text = .ok (some i)) : i.WellFormed := by
  obtain ⟨parts, -, hinj, hparts⟩ := UblockOrigin.parse_eq_ok_iff.mp h
  obtain ⟨hmedia, hselectors, heffect⟩ := UblockOrigin.ofParts_eq_ok_iff.mp hparts
  refine ⟨⟨_, hselectors⟩, ?_, ?_⟩
  · intro b hb
    rw [hb, UblockOrigin.effectOf_eq_ok_iff] at heffect
    rcases heffect with ⟨-, hremove⟩ | ⟨_, hmark, hstyle, hblock⟩
    · cases hremove
    · cases hstyle
      refine ⟨?_, Block.wellFormed_of_parse hblock⟩
      intro hnil
      have hblank := isBlankContent_iff_isFiller.mpr (Block.gaps_of_parse_empty hblock hnil)
      simp [UblockOrigin.Parts.isInjection, hmark, hblank] at hinj
  · intro l hl
    rw [hl] at hmedia
    cases hmedia

theorem wellFormed_of_parse {raw : Text} {i : Injection}
    (h : Injection.parse raw = .ok (some i)) : i.WellFormed := by
  unfold Injection.parse at h
  split at h
  · rw [map_eq_ok_iff] at h
    obtain ⟨j, hj, heq⟩ := h
    cases heq
    exact AdGuard.wellFormed_of_parse hj
  · split at h
    · exact UblockOrigin.wellFormed_of_parse h
    · cases h

/-! ## A text has at most one form -/

theorem AdGuard.getLast?_of_recognizes {text : Text} (h : AdGuard.recognizes text = true) :
    (trim text).getLast? = some '}' := by
  obtain ⟨parts, hparts⟩ := Option.isSome_iff_exists.mp h
  exact AdGuard.split_ends (AdGuard.parts?_eq_some_iff.mp hparts).1

theorem UblockOrigin.getLast?_of_recognizes {text : Text}
    (h : UblockOrigin.recognizes text = true) : (trim text).getLast? = some ')' := by
  obtain ⟨parts, hparts⟩ := Option.isSome_iff_exists.mp h
  exact UblockOrigin.split_ends (UblockOrigin.parts?_eq_some_iff.mp hparts).1

theorem AdGuard.recognizes_of_parse {text : Text} {i : Injection}
    (h : AdGuard.parse text = .ok i) : AdGuard.recognizes text = true := by
  obtain ⟨parts, hsplit, hinj, -⟩ := AdGuard.parse_eq_ok_iff.mp h
  rw [AdGuard.recognizes, AdGuard.parts?_eq_some_iff.mpr ⟨hsplit, hinj⟩]
  rfl

theorem UblockOrigin.recognizes_of_parse {text : Text} {i : Injection}
    (h : UblockOrigin.parse text = .ok (some i)) : UblockOrigin.recognizes text = true := by
  obtain ⟨parts, hsplit, hinj, -⟩ := UblockOrigin.parse_eq_ok_iff.mp h
  rw [UblockOrigin.recognizes, UblockOrigin.parts?_eq_some_iff.mpr ⟨hsplit, hinj⟩]
  rfl

/-- A text that ends with a brace can only have the AdGuard form. -/
theorem parse_of_brace {text : Text} (h : (trim text).getLast? = some '}') {i : Injection} :
    Injection.parse text = .ok (some i) ↔ AdGuard.parse text = .ok i := by
  unfold Injection.parse
  cases hadguard : AdGuard.recognizes text with
  | true => simp [map_eq_ok_iff]
  | false =>
    have hublock : UblockOrigin.recognizes text = false := by
      cases hublock : UblockOrigin.recognizes text with
      | false => rfl
      | true =>
        rw [UblockOrigin.getLast?_of_recognizes hublock] at h
        exact absurd h (by decide)
    constructor
    · intro hparse
      simp [hublock] at hparse
    · intro hparse
      rw [AdGuard.recognizes_of_parse hparse] at hadguard
      cases hadguard

/-- A text that ends with a parenthesis can only have the uBlock Origin form. -/
theorem parse_of_parenthesis {text : Text} (h : (trim text).getLast? = some ')')
    {i : Injection} :
    Injection.parse text = .ok (some i) ↔ UblockOrigin.parse text = .ok (some i) := by
  have hadguard : AdGuard.recognizes text = false := by
    cases hadguard : AdGuard.recognizes text with
    | false => rfl
    | true =>
      rw [AdGuard.getLast?_of_recognizes hadguard] at h
      exact absurd h (by decide)
  unfold Injection.parse
  cases hublock : UblockOrigin.recognizes text with
  | true => simp [hadguard]
  | false =>
    constructor
    · intro hparse
      simp [hadguard] at hparse
    · intro hparse
      rw [UblockOrigin.recognizes_of_parse hparse] at hublock
      cases hublock

end FilterList.Injection
