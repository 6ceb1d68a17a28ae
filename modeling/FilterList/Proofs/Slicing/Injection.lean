import FilterList.Proofs.Injection.UblockOrigin
import FilterList.Proofs.Slicing.Selector
set_option autoImplicit false

/-!
# Style injections by offsets

Here offsets are added up: the offset of a mark, the length of the mark and the place of the
parenthesis in it lead to the group, and what is found behind a comment leads to the next turn of a
loop.  Reading may also end with an error of the injection, which is no fault.
-/

namespace FilterList.Injection

open Css Text

/-! ## Errors and faults -/

/-- The outcome of reading an injection by offsets: an error of the injection is no fault. -/
abbrev CheckedRead : Type → Type := ExceptT InjectionError Checked

/-- An outcome without a fault. -/
def withoutFault {α : Type} (x : Except InjectionError α) : CheckedRead α := ExceptT.mk (.ok x)

theorem withoutFault_bind {α β : Type} {x : Except InjectionError α} {f : α → CheckedRead β}
    {g : α → Except InjectionError β} (h : ∀ a, f a = withoutFault (g a)) :
    (withoutFault x >>= f) = withoutFault (x >>= g) := by
  cases x with
  | error e => rfl
  | ok a => exact h a

/-- Keeps what was found if it is as `keep` says. -/
def keepIf {α : Type} (found : Checked (Option α)) (keep : α → Checked Bool) :
    Checked (Option α) := do
  match ← found with
  | none => return none
  | some a =>
    let kept ← keep a
    return if kept then some a else none

theorem keepIf_eq {α : Type} {found : Checked (Option α)} {o : Option α}
    {keep : α → Checked Bool} {p : α → Bool} (hfound : found = .ok o)
    (hkeep : ∀ a, keep a = .ok (p a)) : keepIf found keep = .ok (o.filter p) := by
  rw [keepIf, hfound, checked_ok_bind]
  cases o with
  | none => rfl
  | some a =>
    simp only [hkeep, checked_ok_bind, Option.filter]
    rfl

/-! ## Blank content -/

/-- The offset of the first occurrence of a pattern. -/
def patternOffset (pattern : Text) : Text → Option Nat
  | [] => if pattern.isEmpty then some 0 else none
  | c :: rest =>
    if (after? pattern (c :: rest)).isSome then some 0
    else (patternOffset pattern rest).map (c.utf8Size + ·)

/-- The text from an offset is no longer than the text. -/
theorem length_le_of_sliceFrom {s tail : Text} {start : Nat} (h : sliceFrom s start = .ok tail) :
    tail.length ≤ s.length := by
  obtain ⟨head, rfl, -⟩ := sliceFrom_eq_ok_iff.mp h
  simp

/-- The text holds nothing but blanks, closed comments and semicolons. -/
def checkedIsBlankContent (content : Text) : Checked Bool :=
  match _hcomment : after? ['/', '*'] (content.dropWhile Token.isFiller) with
  | none => return (content.dropWhile Token.isFiller).isEmpty
  | some comment =>
    match patternOffset ['*', '/'] comment with
    | none => return false
    | some stop =>
      match _hrest : sliceFrom comment (stop + byteLength ['*', '/']) with
      | .error fault => .error fault
      | .ok rest => checkedIsBlankContent rest
termination_by content.length
decreasing_by
  have hle := length_le_of_sliceFrom _hrest
  have htext := congrArg List.length (eq_append_of_after? _hcomment)
  have hdrop := (List.dropWhile_sublist (l := content) Token.isFiller).length_le
  simp only [List.length_append, List.length_cons, List.length_nil] at htext
  omega

/-- A comment is closed where the pattern that closes it is found first, or not at all. -/
theorem patternOffset_cases (gap : Char → Bool) (s : Text) :
    (patternOffset ['*', '/'] s = none ∧ Token.skipComment gap s = none) ∨
      ∃ body after, s = body ++ ['*', '/'] ++ after ∧
        patternOffset ['*', '/'] s = some (byteLength body) ∧
        Token.skipComment gap s = some (Token.skipGaps gap after) := by
  induction s with
  | nil => exact .inl ⟨rfl, by rw [Token.skipComment]⟩
  | cons c s ih =>
    by_cases hclose : ['*', '/'] <+: c :: s
    · obtain ⟨after, hafter⟩ := hclose
      rw [← hafter]
      exact .inr ⟨[], after, rfl, rfl, by simp [Token.skipComment]⟩
    · have hpattern : patternOffset ['*', '/'] (c :: s) =
          (patternOffset ['*', '/'] s).map (c.utf8Size + ·) := by
        rw [patternOffset, if_neg]
        intro hsome
        obtain ⟨after, hafter⟩ := Option.isSome_iff_exists.mp hsome
        exact hclose ⟨after, (eq_append_of_after? hafter).symm⟩
      rw [hpattern, Token.skipComment_cons hclose]
      obtain ⟨hnone, hskip⟩ | ⟨body, after, hs, hsome, hskip⟩ := ih
      · exact .inl ⟨by rw [hnone, Option.map_none], hskip⟩
      · exact .inr ⟨c :: body, after, by rw [hs]; rfl, by rw [hsome]; rfl, hskip⟩

theorem skipFiller_dropWhile (s : Text) :
    Token.skipFiller (s.dropWhile Token.isFiller) = Token.skipFiller s := by
  have hgaps : Token.Gaps Token.isFiller (s.takeWhile Token.isFiller) :=
    .of_all fun _ hc => List.all_eq_true.mp List.all_takeWhile _ hc
  have hskip := Token.skipGaps_append (by decide) hgaps (s.dropWhile Token.isFiller)
  rw [List.takeWhile_append_dropWhile] at hskip
  exact hskip.symm

/-- A text that begins neither with filling nor with a comment is left as it is. -/
theorem skipFiller_eq_self {s : Text} (hhead : ∀ c, s.head? = some c → Token.isFiller c = false)
    (hcomment : after? ['/', '*'] s = none) : Token.skipFiller s = s := by
  cases s with
  | nil => rfl
  | cons c s =>
    have hc := hhead c rfl
    by_cases hslash : c = '/'
    · subst hslash
      have hstar : s.head? ≠ some '*' := by
        intro hstar
        obtain ⟨t, rfl⟩ := List.head?_eq_some_iff.mp hstar
        simp [after?] at hcomment
      rw [Token.skipFiller, Token.skipGaps_slash hstar, if_neg (by simp [hc])]
    · rw [Token.skipFiller, Token.skipGaps_cons hslash, if_neg (by simp [hc])]

theorem head?_dropWhile_isFiller {s : Text} {c : Char}
    (h : (s.dropWhile Token.isFiller).head? = some c) : Token.isFiller c = false := by
  have hhead := List.head?_dropWhile_not Token.isFiller s
  rw [h] at hhead
  simpa using hhead

theorem skipFiller_of_comment {s comment : Text}
    (h : after? ['/', '*'] (s.dropWhile Token.isFiller) = some comment) :
    Token.skipFiller s =
      (Token.skipComment Token.isFiller comment).getD ('/' :: '*' :: comment) := by
  rw [← skipFiller_dropWhile, eq_append_of_after? h, Token.skipFiller]
  simp [Token.skipGaps]

/-- Where the end of a comment is found, the text behind it is what the comment leaves. -/
theorem sliceFrom_behind_comment {comment : Text} {stop : Nat}
    (h : patternOffset ['*', '/'] comment = some stop) :
    ∃ after, sliceFrom comment (stop + byteLength ['*', '/']) = .ok after ∧
      Token.skipComment Token.isFiller comment = some (Token.skipFiller after) := by
  obtain ⟨hnone, -⟩ | ⟨body, after, hcomment, hsome, hskip⟩ :=
    patternOffset_cases Token.isFiller comment
  · rw [hnone] at h
    cases h
  · rw [hsome, Option.some.injEq] at h
    exact ⟨after, sliceFrom_of_eq hcomment (by simp [← h]), hskip⟩

theorem checkedIsBlankContent_eq (content : Text) :
    checkedIsBlankContent content = .ok (isBlankContent content) := by
  fun_induction checkedIsBlankContent content with
  | case1 content hnone =>
    rw [isBlankContent, ← skipFiller_dropWhile,
      skipFiller_eq_self (fun _ => head?_dropWhile_isFiller) hnone]
    rfl
  | case2 content comment hcomment hopen =>
    obtain ⟨-, hskip⟩ | ⟨body, after, -, hsome, -⟩ :=
      patternOffset_cases Token.isFiller comment
    · rw [isBlankContent, skipFiller_of_comment hcomment, hskip]
      rfl
    · rw [hopen] at hsome
      cases hsome
  | case3 content comment hcomment stop hstop fault hfault =>
    obtain ⟨after, hafter, -⟩ := sliceFrom_behind_comment hstop
    rw [hafter] at hfault
    cases hfault
  | case4 content comment hcomment stop hstop rest hrest ih =>
    obtain ⟨after, hafter, hskip⟩ := sliceFrom_behind_comment hstop
    rw [hafter] at hrest
    cases hrest
    rw [ih, isBlankContent, isBlankContent, skipFiller_of_comment hcomment, hskip]
    rfl

/-- The loop that takes filling and comments off the front by offsets always answers, and says that
content is blank exactly if the block around it is read as one without declarations. -/
theorem isBlankContent_agrees_with_block (content : Text) :
    checkedIsBlankContent content = .ok (isBlankContent content) ∧
      (isBlankContent content = true ↔
        ∃ block, Block.parse ('{' :: content ++ ['}']) = .ok block ∧ block.declarations = []) :=
  ⟨checkedIsBlankContent_eq content, isBlankContent_iff_parse_empty content⟩

/-! ## Fragments of an injection -/

/-- Reads the selectors of an injection. -/
def checkedParseSelectors (text : Text) : CheckedRead (List Selector) := ExceptT.mk do
  let result ← Selector.checkedParseList text
  return result.mapError .invalidSelector

/-- Reads the declarations of an injection from the text between their braces. -/
def checkedParseContent (content : Text) : CheckedRead Block := ExceptT.mk do
  let result ← Block.checkedParse ('{' :: content ++ ['}'])
  return result.mapError .invalidBlock

theorem checkedParseSelectors_eq (text : Text) :
    checkedParseSelectors text = withoutFault (parseSelectors text) := by
  rw [checkedParseSelectors, Selector.checkedParseList_eq]
  rfl

theorem checkedParseContent_eq (content : Text) :
    checkedParseContent content = withoutFault (parseContent content) := by
  rw [checkedParseContent, Block.checkedParse_eq]
  rfl

/-! ## The AdGuard form -/

namespace AdGuard

/-- What stands between the braces of a block. -/
def blockContent (block : Text) : Text :=
  ((after? ['{'] block).bind (beforeFinal? '}')).getD []

/-- Splits `selectors { content }`, which has to end with the brace. -/
def checkedSplitRule (mediaQueries : Option Text) (text : Text) : Checked (Option Parts) := do
  match ← unquotedOffset '{' text with
  | none => return none
  | some start =>
    let block ← sliceFrom text start
    if endsWith '}' block then
      let selectors ← sliceTo text start
      return some { mediaQueries, selectors := trim selectors, content := blockContent block }
    else return none

/-- Splits a text into its parts, with or without a media rule around them. -/
def checkedSplit (text : Text) : Checked (Option Parts) :=
  let trimmed := trim text
  match after? mediaWord trimmed with
  | some rest => do
    match ← unquotedOffset '{' rest with
    | none => return none
    | some start =>
      let behind ← sliceFrom rest (start + '{'.utf8Size)
      match beforeFinal? '}' behind with
      | none => return none
      | some inner =>
        let queries ← sliceTo rest start
        checkedSplitRule (some (trim queries)) (trim inner)
  | none => checkedSplitRule none trimmed

/-- The parts belong to an injection: there are selectors, and there is a declaration. -/
def Parts.checkedIsInjection (parts : Parts) : Checked Bool :=
  if parts.selectors.isEmpty then return false
  else do
    let blank ← checkedIsBlankContent (trim parts.content)
    return !blank

/-- The parts of a text that has the form of an injection. -/
def checkedParts? (text : Text) : Checked (Option Parts) :=
  keepIf (checkedSplit text) Parts.checkedIsInjection

/-- The text has the form of an injection. -/
def checkedRecognizes (text : Text) : Checked Bool := do
  let parts ← checkedParts? text
  return parts.isSome

/-- Reads the media queries of an injection, if there are any. -/
def checkedParseMediaQueries : Option Text → CheckedRead (Option MediaQueryList)
  | none => return none
  | some text => ExceptT.mk do
    let result ← MediaQueryList.checkedParse text
    return (result.map some).mapError .invalidMediaQuery

/-- Reads an injection from its parts. -/
def checkedOfParts (text : Text) (parts : Parts) : CheckedRead Injection := do
  let mediaQueries ← checkedParseMediaQueries parts.mediaQueries
  let selectors ← checkedParseSelectors parts.selectors
  let block ← checkedParseContent parts.content
  let effect ← withoutFault (effectOf text block)
  return { mediaQueries, selectors, effect }

/-- Reads a text that is an injection in this form. -/
def checkedParse (text : Text) : Checked (Except InjectionError Injection) := do
  match ← checkedParts? text with
  | some parts => (checkedOfParts text parts).run
  | none => return .error (.unrecognized text)

theorem endsWith_cons {c d : Char} (hcd : c ≠ d) (s : Text) :
    endsWith d (c :: s) = (beforeFinal? d s).isSome := by
  cases hs : s.getLast? with
  | none => simp [endsWith, beforeFinal?, List.getLast?_cons, hs, hcd]
  | some last => cases hd : last == d <;> simp [endsWith, beforeFinal?, List.getLast?_cons, hs, hd]

theorem checkedSplitRule_eq (mediaQueries : Option Text) (text : Text) :
    checkedSplitRule mediaQueries text = .ok (splitRule mediaQueries text) := by
  rw [checkedSplitRule, splitRule, unquotedOffset_eq, checked_ok_bind]
  cases hcut : cutBare '{' text with
  | none => rfl
  | some cut =>
    obtain ⟨htext, -⟩ := (cutBare_eq_some_iff (by decide)).mp hcut
    have hblock : sliceFrom text cut.offset = .ok ('{' :: cut.after) := sliceFrom_of_eq htext rfl
    have hselectors : sliceTo text cut.offset = .ok cut.before := sliceTo_of_eq htext rfl
    simp only [Option.map_some, hblock, hselectors, checked_ok_bind, checked_pure,
      endsWith_cons (show '{' ≠ '}' by decide)]
    cases hfinal : beforeFinal? '}' cut.after with
    | none => simp [hfinal]
    | some content => simp [blockContent, after?, hfinal]

theorem checkedSplit_eq (text : Text) : checkedSplit text = .ok (split text) := by
  unfold checkedSplit split
  cases hmedia : after? mediaWord (trim text) with
  | none => simp [hmedia, checkedSplitRule_eq]
  | some rest =>
    simp only [hmedia, unquotedOffset_eq, checked_ok_bind]
    cases hcut : cutBare '{' rest with
    | none => rfl
    | some cut =>
      obtain ⟨hrest, -⟩ := (cutBare_eq_some_iff (by decide)).mp hcut
      have hbehind : sliceFrom rest (cut.offset + '{'.utf8Size) = .ok cut.after :=
        sliceFrom_behind hrest
      have hqueries : sliceTo rest cut.offset = .ok cut.before := sliceTo_of_eq hrest rfl
      simp only [Option.map_some, hbehind, hqueries, checked_ok_bind]
      cases hfinal : beforeFinal? '}' cut.after with
      | none => simp [hfinal]
      | some inner => simp [hfinal, checkedSplitRule_eq]

theorem Parts.checkedIsInjection_eq (parts : Parts) :
    parts.checkedIsInjection = .ok parts.isInjection := by
  rw [checkedIsInjection, isInjection, checkedIsBlankContent_eq]
  split
  · next hselectors => simp [hselectors]
  · next hselectors => simp [hselectors]

theorem checkedParts?_eq (text : Text) : checkedParts? text = .ok (parts? text) :=
  keepIf_eq (checkedSplit_eq text) Parts.checkedIsInjection_eq

theorem checkedRecognizes_eq (text : Text) : checkedRecognizes text = .ok (recognizes text) := by
  rw [checkedRecognizes, checkedParts?_eq]
  rfl

theorem checkedParseMediaQueries_eq (text : Option Text) :
    checkedParseMediaQueries text = withoutFault (parseMediaQueries text) := by
  cases text with
  | none => rfl
  | some text =>
    rw [checkedParseMediaQueries, MediaQueryList.checkedParse_eq]
    rfl

theorem checkedOfParts_eq (text : Text) (parts : Parts) :
    checkedOfParts text parts = withoutFault (ofParts text parts) := by
  rw [checkedOfParts, checkedParseMediaQueries_eq]
  refine withoutFault_bind fun mediaQueries => ?_
  rw [checkedParseSelectors_eq]
  refine withoutFault_bind fun selectors => ?_
  rw [checkedParseContent_eq]
  exact withoutFault_bind fun block => withoutFault_bind fun effect => rfl

theorem checkedParse_eq (text : Text) : checkedParse text = .ok (parse text) := by
  rw [checkedParse, parse, checkedParts?_eq, checked_ok_bind]
  cases parts? text with
  | none => rfl
  | some parts => exact checkedOfParts_eq text parts

end AdGuard

/-! ## The uBlock Origin form -/

namespace UblockOrigin

/-- The offset of the last mark that is bare and outside brackets, with `found` for the last one
before `offset`. -/
def markOffsetFrom (s : Text) :
    Nat → Nat → Quotation → Option (Nat × Mark) → Text → Checked (Option (Nat × Mark))
  | _, _, _, found, [] => return found
  | offset, depth, q, found, '\\' :: c :: rest =>
    markOffsetFrom s (offset + '\\'.utf8Size + c.utf8Size) depth q found rest
  | offset, depth, q, found, c :: rest =>
    if q.bare c then
      if c = ':' ∧ depth = 0 then do
        let tail ← sliceFrom s offset
        let here := (Mark.read? tail).map fun (mark, _) => (offset, mark)
        markOffsetFrom s (offset + c.utf8Size) depth q (here.or found) rest
      else markOffsetFrom s (offset + c.utf8Size) (depthAfter depth c) q found rest
    else markOffsetFrom s (offset + c.utf8Size) depth (q.next c) found rest

/-- The offset of the mark that ends the selectors. -/
def markOffset (s : Text) : Checked (Option (Nat × Mark)) := markOffsetFrom s 0 0 none none s

/-- Splits a text into its parts. -/
def checkedSplit (text : Text) : Checked (Option Parts) := do
  let trimmed := trim text
  match ← markOffset trimmed with
  | none => return none
  | some (start, mark) =>
    let opening ← difference (start + byteLength (mark.render ++ ['('])) 1
    match ← closingOffset trimmed opening with
    | none => return none
    | some stop =>
      if stop + 1 ≠ byteLength trimmed then return none
      else
        let selectors ← sliceTo trimmed start
        let content ← slice trimmed (opening + 1) stop
        return some { selectors := trim selectors, mark, content := trim content }

/-- The parts belong to an injection: there are selectors, a style has a declaration, and a removal
has nothing in its parentheses. -/
def Parts.checkedIsInjection (parts : Parts) : Checked Bool :=
  if parts.selectors.isEmpty then return false
  else
    match parts.mark with
    | .style => do
      let blank ← checkedIsBlankContent parts.content
      return !blank
    | .remove => return parts.content.isEmpty

/-- The parts of a text that has the form of an injection. -/
def checkedParts? (text : Text) : Checked (Option Parts) :=
  keepIf (checkedSplit text) Parts.checkedIsInjection

/-- The text has the form of an injection. -/
def checkedRecognizes (text : Text) : Checked Bool := do
  let parts ← checkedParts? text
  return parts.isSome

/-- What the mark does. -/
def checkedEffectOf : Mark → Text → CheckedRead Effect
  | .remove, _ => return .remove
  | .style, content => Effect.style <$> checkedParseContent content

/-- Reads an injection from its parts. -/
def checkedOfParts (parts : Parts) : CheckedRead Injection := do
  let selectors ← checkedParseSelectors parts.selectors
  let effect ← checkedEffectOf parts.mark parts.content
  return { mediaQueries := none, selectors, effect }

/-- Reads a text that has the form of an injection; any other text gives none. -/
def checkedParse (text : Text) : Checked (Except InjectionError (Option Injection)) := do
  match ← checkedParts? text with
  | some parts => (some <$> checkedOfParts parts).run
  | none => return .ok none

theorem markOffsetFrom_eq {s rest : Text} (before : Text) (offset : Nat) (hs : s = before ++ rest)
    (hoffset : offset = byteLength before) (depth : Nat) (q : Quotation)
    (found : Option (Nat × Mark)) :
    markOffsetFrom s offset depth q found rest =
      .ok (((cutLastMark depth q rest).map fun cut =>
        (offset + byteLength cut.before, cut.mark)).or found) := by
  induction rest using escapeInduction generalizing before offset depth q found with
  | nil => rfl
  | lone => simp [markOffsetFrom, cutLastMark, Quotation.bare]
  | escape c rest ih =>
    have hrest := ih (before ++ ['\\', c]) (offset + '\\'.utf8Size + c.utf8Size) (by simp [hs])
      (by simp [hoffset, Nat.add_assoc]) depth q found
    rw [markOffsetFrom, hrest, cutLastMark_escape]
    simp [Function.comp_def, MarkCut.shift, Nat.add_assoc]
  | char c rest hc ih =>
    have hrest := ih (before ++ [c]) (offset + c.utf8Size) (by simp [hs])
      (by simp [hoffset])
    have hescape : ∀ d t, c = '\\' → rest = d :: t → False := fun _ _ h _ => hc h
    cases hb : q.bare c with
    | false =>
      rw [markOffsetFrom.eq_3 s _ _ _ _ _ _ hescape, if_neg (by simp [hb]), hrest,
        cutLastMark_hidden hc hb]
      simp [Function.comp_def, MarkCut.shift, Nat.add_assoc]
    | true =>
      rw [markOffsetFrom.eq_3 s _ _ _ _ _ _ hescape, if_pos hb, cutLastMark_bare hb]
      by_cases hcolon : c = ':' ∧ depth = 0
      · obtain ⟨rfl, rfl⟩ := hcolon
        have htail : sliceFrom s offset = .ok (':' :: rest) := sliceFrom_of_eq hs hoffset
        have hdepth : depthAfter 0 ':' = 0 := rfl
        rw [if_pos ⟨rfl, rfl⟩, htail, checked_ok_bind, hrest, hdepth, if_pos rfl]
        cases cutLastMark 0 q rest with
        | some cut => simp [MarkCut.shift, Nat.add_assoc]
        | none => simp [Function.comp_def]
      · have hread : (if depth = 0 then (Mark.read? (c :: rest)).map fun r =>
            (⟨[], r.1, r.2⟩ : MarkCut) else none) = none := by
          cases hmark : Mark.read? (c :: rest) with
          | none => simp
          | some r =>
            have hdepth : depth ≠ 0 := fun h => hcolon ⟨Mark.eq_colon_of_read? hmark, h⟩
            rw [if_neg hdepth]
        rw [if_neg hcolon, hread, hrest, Option.or_none]
        simp [Function.comp_def, MarkCut.shift, Nat.add_assoc]

theorem markOffset_eq (s : Text) :
    markOffset s =
      .ok ((cutLastMark 0 none s).map fun cut => (byteLength cut.before, cut.mark)) := by
  rw [markOffset, markOffsetFrom_eq [] 0 (List.nil_append s).symm rfl]
  simp

theorem checkedSplit_eq (text : Text) : checkedSplit text = .ok (split text) := by
  rw [checkedSplit, split, markOffset_eq, checked_ok_bind]
  cases hcut : cutLastMark 0 none (trim text) with
  | none => rfl
  | some cut =>
    obtain ⟨htext, -⟩ := cutLastMark_eq_some hcut
    have hopen : '('.utf8Size = 1 := rfl
    have hclose : ')'.utf8Size = 1 := rfl
    obtain ⟨front, hfront⟩ : ∃ front, front = cut.before ++ cut.mark.render := ⟨_, rfl⟩
    have hsplit : trim text = front ++ cut.group := by
      rw [hfront]
      exact htext
    have hopening : difference (byteLength cut.before + byteLength (cut.mark.render ++ ['('])) 1 =
        .ok (byteLength front) :=
      difference_of_eq (by simp [hfront, hopen, Nat.add_assoc])
    simp only [Option.map_some, hopening, checked_ok_bind, closingOffset_append hsplit rfl]
    cases hinside : group? cut.group with
    | none => simp [hinside]
    | some parts =>
      obtain ⟨hparts, -⟩ := group?_eq_some_iff.mp hinside
      have hend : byteLength (trim text) =
          byteLength front + 1 + byteLength parts.1 + 1 + byteLength parts.2 := by
        rw [hsplit, hparts]
        simp [hopen, hclose, Nat.add_assoc]
      have hselectors : sliceTo (trim text) (byteLength cut.before) = .ok cut.before :=
        sliceTo_of_eq (by rw [hsplit, hfront, List.append_assoc]) rfl
      have hcontent : slice (trim text) (byteLength front + 1)
          (byteLength front + 1 + byteLength parts.1) = .ok parts.1 :=
        slice_of_eq (front ++ ['(']) (')' :: parts.2)
          (by rw [hsplit, hparts]; simp) (by simp [hopen]) (by simp [hopen, Nat.add_assoc])
      simp only [Option.map_some, hselectors, hcontent, checked_ok_bind, checked_pure]
      by_cases hrest : parts.2 = []
      · have hstop : byteLength front + 1 + byteLength parts.1 + 1 = byteLength (trim text) := by
          rw [hend, hrest, byteLength_nil, Nat.add_zero]
        simp [hstop, hinside, hrest]
      · have hstop : byteLength front + 1 + byteLength parts.1 + 1 ≠ byteLength (trim text) := by
          have hpos := mt byteLength_eq_zero_iff.mp hrest
          omega
        simp [hstop, hinside, hrest]

theorem Parts.checkedIsInjection_eq (parts : Parts) :
    parts.checkedIsInjection = .ok parts.isInjection := by
  rw [checkedIsInjection, isInjection, checkedIsBlankContent_eq]
  split
  · next hselectors => simp [hselectors]
  · next hselectors => cases parts.mark <;> simp [hselectors]

theorem checkedParts?_eq (text : Text) : checkedParts? text = .ok (parts? text) :=
  keepIf_eq (checkedSplit_eq text) Parts.checkedIsInjection_eq

theorem checkedRecognizes_eq (text : Text) : checkedRecognizes text = .ok (recognizes text) := by
  rw [checkedRecognizes, checkedParts?_eq]
  rfl

theorem checkedEffectOf_eq (mark : Mark) (content : Text) :
    checkedEffectOf mark content = withoutFault (effectOf mark content) := by
  cases mark with
  | remove => rfl
  | style =>
    rw [checkedEffectOf, checkedParseContent_eq, effectOf]
    cases parseContent content <;> rfl

theorem checkedOfParts_eq (parts : Parts) :
    checkedOfParts parts = withoutFault (ofParts parts) := by
  rw [checkedOfParts, checkedParseSelectors_eq]
  refine withoutFault_bind fun selectors => ?_
  rw [checkedEffectOf_eq]
  exact withoutFault_bind fun effect => rfl

theorem checkedParse_eq (text : Text) : checkedParse text = .ok (parse text) := by
  rw [checkedParse, parse, checkedParts?_eq, checked_ok_bind]
  cases parts? text with
  | none => rfl
  | some parts =>
    simp only [checkedOfParts_eq]
    cases ofParts parts <;> rfl

end UblockOrigin

/-! ## Either form -/

/-- Reads a text in either form.  A text in neither form gives none. -/
def checkedParse (text : Text) : Checked (Except InjectionError (Option Injection)) := do
  if ← AdGuard.checkedRecognizes text then
    let result ← AdGuard.checkedParse text
    return result.map some
  else if ← UblockOrigin.checkedRecognizes text then UblockOrigin.checkedParse text
  else return .ok none

theorem checkedParse_eq (text : Text) : checkedParse text = .ok (parse text) := by
  rw [checkedParse, parse, AdGuard.checkedRecognizes_eq, checked_ok_bind]
  cases AdGuard.recognizes text with
  | true => simp [AdGuard.checkedParse_eq]
  | false =>
    cases hublock : UblockOrigin.recognizes text with
    | true => simp [UblockOrigin.checkedRecognizes_eq, UblockOrigin.checkedParse_eq, hublock]
    | false => simp [UblockOrigin.checkedRecognizes_eq, hublock]

end FilterList.Injection
