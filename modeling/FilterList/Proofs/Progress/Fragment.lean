import FilterList.Proofs.Css.Block
import FilterList.Proofs.Css.MediaQuery
import FilterList.Proofs.Progress.Token
set_option autoImplicit false

/-!
# Declaration blocks and media queries move forward, and their loops end

A declaration takes its value up to where a scan stops, and the rest is what the scan has not seen.

A block is read declaration by declaration, each with the filling before it.  A program reads it in
a loop whose turns are smaller: a turn takes the closing brace, or a single semicolon, or a
declaration with what ends it.  The section on blocks shows that this loop gives the same.
-/

namespace FilterList.Css

open Reader Token

/-! ## Declarations -/

namespace Declaration

theorem spanValue_suffix (s : Text) : (spanValue s).2 <:+ s :=
  ⟨(spanValue s).1, Text.breakBare_append valueStep 0 none s⟩

theorem forward_valueReader : Forward valueReader := forward_iff.mpr spanValue_suffix

theorem forward_reader : Forward reader := by
  refine (forward_name.expecting _).bind fun property => forward_blank.bind fun _ =>
    ((forward_char ':').committed.expecting _).bind fun _ =>
      forward_valueReader.bind fun written => ?_
  dsimp only
  exact forward_fail.committed.ite (forward_pure _)

theorem forward_endReader : Forward endReader := by
  rw [forward_iff]
  intro s
  unfold endReader
  split
  all_goals simp

theorem failing_endReader : Failing true endReader := by
  intro s failure rest h
  unfold endReader at h
  split at h
  · cases h
  · cases h
  · cases h
    rfl

theorem forward_itemReader : Forward itemReader :=
  forward_filler.bind fun _ => (forward_lookingAt '}').bind fun _ => forward_fail.ite
    ((forward_reader.committed.noting _).bind fun _ => forward_endReader.bind fun _ =>
      forward_pure _)

/-- The name of the property has been taken, and nothing of it is given back. -/
theorem progress_reader : Progress reader := by
  intro s d rest h
  rw [reader_eq_done_iff] at h
  obtain ⟨mid, t, hname, hcolon, -, rfl, -⟩ := h
  have hproperty := progress_name s d.property mid hname
  have hskip := (skipBlank_suffix mid).length_le
  have hvalue := (spanValue_suffix t).length_le
  rw [hcolon, List.length_cons] at hskip
  omega

end Declaration

/-! ## Blocks -/

theorem Token.Tight.eq_nil_of_gap {w t : Text} (h : Tight (w ++ t)) (hw : IsGap w) : w = [] := by
  have hskip : skipBlank (w ++ t) = skipBlank t := skipGaps_append rfl hw t
  have hle := (skipBlank_suffix t).length_le
  rw [Tight, hskip] at h
  rw [h, List.length_append] at hle
  exact List.length_eq_zero_iff.mp (by omega)

/-- Behind blanks and comments only a semicolon is filling. -/
theorem Token.Tight.skipFiller_eq {s : Text} (h : Tight s) (hs : s.head? ≠ some ';') :
    skipFiller s = s := by
  obtain ⟨f, hf, hgaps⟩ := exists_gaps_append_skipGaps isFiller s
  rw [hf] at h hs
  cases hgaps with
  | nil => exact hf.symm
  | @char c f hc hgaps =>
    rw [isFiller, Bool.or_eq_true, beq_iff_eq] at hc
    rcases hc with hblank | rfl
    · have hgap : IsGap [c] := .char hblank .nil
      exact absurd (Tight.eq_nil_of_gap (w := [c]) h hgap) (by simp)
    · exact absurd rfl hs
  | @comment body f hbody hgaps =>
    have hgap : IsGap ('/' :: '*' :: body ++ ['*', '/']) := .comment hbody .nil
    exact absurd (Tight.eq_nil_of_gap (by simpa using h) hgap) (by simp)

/-- Blanks are filling, so it makes no difference to skip them first. -/
theorem Token.skipFiller_skipBlank (s : Text) : skipFiller (skipBlank s) = skipFiller s := by
  obtain ⟨w, hs, hw⟩ := exists_gap_append_skipBlank s
  have hfiller : Gaps isFiller w := hw.mono fun c hc => by simp [isFiller, hc]
  have happend := skipGaps_append (by decide) hfiller (skipBlank s)
  rw [← hs] at happend
  exact happend.symm

namespace Block

/-- Takes what stands between the braces of a block, and the closing brace. -/
def contentReader : Reader (List Declaration) := do
  let declarations ← .many Declaration.itemReader
  Token.filler
  .char '}'
  return declarations

/-- Takes a declaration in a block. -/
def declarationReader : Reader Declaration := .noting .inDeclaration (.committed Declaration.reader)

/-- Takes what ends a declaration and says whether it ends the block as well. -/
def closeReader : Reader Bool :=
  .expecting (.char ';') (.committed
    (.either ((fun _ => false) <$> .char ';') ((fun _ => true) <$> .char '}')))

/-- A turn of the loop that takes what stands between the braces of a block. -/
def turn (declarations : List Declaration) :
    Reader (Turn (List Declaration) (List Declaration)) := do
  Token.blank
  if (← .attempt (.char '}')).isSome then return .leave declarations
  else if (← .attempt (.char ';')).isSome then return .again declarations
  else
    let declaration ← declarationReader
    let closes ← closeReader
    if closes then return .leave (declarations ++ [declaration])
    else return .again (declarations ++ [declaration])

theorem forward_closeReader : Forward closeReader :=
  (((forward_char ';').map _).either ((forward_char '}').map _)).committed.expecting _

theorem contentReader_of_brace {s rest : Text} (h : skipFiller s = '}' :: rest) :
    contentReader s = .done [] rest := by
  have hfiller : filler s = .done () ('}' :: rest) := by rw [filler, skip, h]
  have hitem : Declaration.itemReader s = .failed .soft ('}' :: rest) := by
    rw [Declaration.itemReader, bind_of_done hfiller]
    rfl
  have hmany : many Declaration.itemReader s = .done [] s := by
    rw [many_apply Declaration.progress_itemReader, hitem]
    rfl
  rw [contentReader, bind_of_done hmany, bind_of_done hfiller]
  rfl

/-- Unless the block closes, a declaration is read and then the rest of the block. -/
theorem contentReader_of_item {s : Text} (h : Text.beginsWith '}' (skipFiller s) = false) :
    contentReader s =
      (do
        let declaration ← declarationReader
        Declaration.endReader
        (declaration :: ·) <$> contentReader : Reader (List Declaration)) (skipFiller s) := by
  have hitem : Declaration.itemReader s =
      (do
        let declaration ← declarationReader
        Declaration.endReader
        return declaration : Reader Declaration) (skipFiller s) := by
    have hlooking : lookingAt '}' (skipFiller s) = .done false (skipFiller s) := by
      rw [lookingAt, h]
    rw [Declaration.itemReader, bind_of_done (rfl : filler s = .done () (skipFiller s)),
      bind_of_done hlooking]
    rfl
  rw [contentReader, bind_apply, many_apply Declaration.progress_itemReader, hitem]
  cases hread : declarationReader (skipFiller s) with
  | failed failure rest =>
    have hfinal := ((failing_committed Declaration.reader).noting .inDeclaration) _ _ _ hread
    simp only [bind_of_failed hread, hfinal, if_true]
  | done d mid =>
    simp only [bind_of_done hread]
    -- the repetition goes on behind the item, exactly where the content is read on
    cases hend : Declaration.endReader mid with
    | failed failure rest =>
      have hfinal := Declaration.failing_endReader mid failure rest hend
      simp only [bind_of_failed hend, hfinal, if_true]
    | done u rest =>
      simp only [bind_of_done hend, pure_apply, map_apply]
      rw [bind_apply]
      cases many Declaration.itemReader rest with
      | failed failure rest' => rfl
      | done declarations rest' =>
        simp only [Reply.map, bind_apply, filler, skip]
        cases char '}' (skipFiller rest') <;> rfl

/-- What stands between the braces is read from behind the filling on. -/
theorem contentReader_congr {s t : Text} (h : skipFiller s = skipFiller t) :
    contentReader s = contentReader t := by
  cases hbrace : Text.beginsWith '}' (skipFiller s) with
  | true =>
    obtain ⟨rest, hs⟩ := List.head?_eq_some_iff.mp (beq_iff_eq.mp hbrace)
    rw [contentReader_of_brace hs, contentReader_of_brace (h ▸ hs)]
  | false => rw [contentReader_of_item hbrace, contentReader_of_item (h ▸ hbrace), h]

/-- Both readers of what ends a declaration want the same.  One of them leaves the closing brace to
whoever reads on. -/
theorem closeReader_cases (s : Text) :
    (∃ rest, closeReader s = .done false rest ∧ Declaration.endReader s = .done () rest) ∨
      (∃ rest, closeReader s = .done true rest ∧
        Declaration.endReader s = .done () ('}' :: rest)) ∨
      ∃ failure rest, closeReader s = .failed failure rest ∧
        Declaration.endReader s = .failed failure rest := by
  unfold Declaration.endReader
  split
  · next rest => exact .inl ⟨rest, rfl, rfl⟩
  · next rest => exact .inr (.inl ⟨rest, rfl, rfl⟩)
  · next hsemicolon hbrace =>
    refine .inr (.inr ⟨_, s, ?_, rfl⟩)
    simp [closeReader, expecting, noting, committed, either, map_apply, char_of_ne hsemicolon,
      char_of_ne hbrace, Reply.map, Failure.soft]

/-- Behind the blanks the block closes, or a semicolon stands, or a declaration is wanted. -/
theorem front_cases (s : Text) :
    (∃ rest, skipBlank s = '}' :: rest) ∨ (∃ rest, skipBlank s = ';' :: rest) ∨
      ((∀ rest, skipBlank s ≠ '}' :: rest) ∧ ∀ rest, skipBlank s ≠ ';' :: rest) := by
  by_cases hbrace : ∃ rest, skipBlank s = '}' :: rest
  · exact .inl hbrace
  · by_cases hsemicolon : ∃ rest, skipBlank s = ';' :: rest
    · exact .inr (.inl hsemicolon)
    · exact .inr (.inr ⟨fun rest h => hbrace ⟨rest, h⟩, fun rest h => hsemicolon ⟨rest, h⟩⟩)

section

variable (declarations : List Declaration) {s : Text}

theorem turn_of_brace {rest : Text} (h : skipBlank s = '}' :: rest) :
    turn declarations s = .done (.leave declarations) rest := by
  have hblank : blank s = .done () ('}' :: rest) := by rw [blank, skip, h]
  rw [turn, bind_of_done hblank]
  rfl

theorem turn_of_semicolon {rest : Text} (h : skipBlank s = ';' :: rest) :
    turn declarations s = .done (.again declarations) rest := by
  have hblank : blank s = .done () (';' :: rest) := by rw [blank, skip, h]
  rw [turn, bind_of_done hblank]
  rfl

theorem turn_of_item (hbrace : ∀ rest, skipBlank s ≠ '}' :: rest)
    (hsemicolon : ∀ rest, skipBlank s ≠ ';' :: rest) :
    turn declarations s =
      (do
        let declaration ← declarationReader
        let closes ← closeReader
        if closes then return .leave (declarations ++ [declaration])
        else return .again (declarations ++ [declaration]) :
        Reader (Turn (List Declaration) (List Declaration))) (skipBlank s) := by
  have hno : ∀ c, (∀ rest, skipBlank s ≠ c :: rest) →
      attempt (char c) (skipBlank s) = .done none (skipBlank s) := by
    intro c hc
    rw [attempt, char_of_ne hc]
    rfl
  rw [turn, bind_of_done (rfl : blank s = .done () (skipBlank s)), bind_of_done (hno '}' hbrace),
    Option.isSome_none, if_neg Bool.false_ne_true, bind_of_done (hno ';' hsemicolon),
    Option.isSome_none, if_neg Bool.false_ne_true]

end

theorem contentReader_unfold_item (declarations : List Declaration) {s : Text}
    (hbrace : ∀ rest, skipBlank s ≠ '}' :: rest) (hsemicolon : ∀ rest, skipBlank s ≠ ';' :: rest) :
    ((declarations ++ ·) <$> contentReader) s =
      (turn declarations >>= Turn.next fun declarations =>
        (declarations ++ ·) <$> contentReader) s := by
  have htight : Tight (skipBlank s) := skipGaps_skipGaps rfl s
  have hfiller : skipFiller s = skipBlank s := by
    rw [← skipFiller_skipBlank]
    refine htight.skipFiller_eq fun hhead => ?_
    obtain ⟨rest, hs⟩ := List.head?_eq_some_iff.mp hhead
    exact hsemicolon rest hs
  have hopen : Text.beginsWith '}' (skipFiller s) = false := by
    rw [hfiller, Text.beginsWith, beq_eq_false_iff_ne]
    intro hhead
    obtain ⟨rest, hs⟩ := List.head?_eq_some_iff.mp hhead
    exact hbrace rest hs
  rw [map_apply, contentReader_of_item hopen, hfiller, bind_apply (turn declarations),
    turn_of_item declarations hbrace hsemicolon]
  cases hread : declarationReader (skipBlank s) with
  | failed failure rest =>
    rw [bind_of_failed hread, bind_of_failed hread]
    rfl
  | done d mid =>
    rw [bind_of_done hread, bind_of_done hread]
    -- a brace left in place is what the rest of the content begins with, and ends it
    rcases closeReader_cases mid with ⟨rest, hclose, hend⟩ | ⟨rest, hclose, hend⟩ |
      ⟨failure, rest, hclose, hend⟩
    · rw [bind_of_done hclose, bind_of_done hend]
      simp [map_apply, Reply.map_map]
    · have hover : contentReader ('}' :: rest) = .done [] rest :=
        contentReader_of_brace (Declaration.skipFiller_cons (by decide) rest)
      rw [bind_of_done hclose, bind_of_done hend]
      simp [map_apply, hover, Reply.map]
    · rw [bind_of_failed hclose, bind_of_failed hend]
      rfl

/-- The loop and the reader agree turn by turn: at a closing brace both are over, a semicolon is
filling for the reader, and elsewhere both read a declaration. -/
theorem contentReader_unfold (declarations : List Declaration) :
    (declarations ++ ·) <$> contentReader =
      turn declarations >>=
        Turn.next fun declarations => (declarations ++ ·) <$> contentReader := by
  funext s
  rcases front_cases s with ⟨rest, h⟩ | ⟨rest, h⟩ | ⟨hbrace, hsemicolon⟩
  · have hfiller : skipFiller s = '}' :: rest := by
      rw [← skipFiller_skipBlank, h]
      exact Declaration.skipFiller_cons (by decide) rest
    rw [map_apply, contentReader_of_brace hfiller, bind_of_done (turn_of_brace declarations h)]
    simp [Reply.map]
  · have hfiller : skipFiller s = skipFiller rest := by
      rw [← skipFiller_skipBlank, h]
      exact skipGaps_cons (by decide) rest
    rw [bind_of_done (turn_of_semicolon declarations h), Turn.next_again, map_apply, map_apply,
      contentReader_congr hfiller]
  · exact contentReader_unfold_item declarations hbrace hsemicolon

/-- Each turn takes a semicolon or a declaration if the loop goes on. -/
theorem consuming_turn : Consuming turn := by
  intro declarations s declarations' rest h
  have hskip := (skipBlank_suffix s).length_le
  rcases front_cases s with ⟨rest', hs⟩ | ⟨rest', hs⟩ | ⟨hbrace, hsemicolon⟩
  · rw [turn_of_brace declarations hs] at h
    cases h
  · rw [turn_of_semicolon declarations hs] at h
    cases h
    rw [hs, List.length_cons] at hskip
    omega
  · rw [turn_of_item declarations hbrace hsemicolon] at h
    simp only [bind_eq_done_iff, declarationReader, noting_eq_done_iff,
      committed_eq_done_iff] at h
    obtain ⟨d, mid, hd, closes, mid', hclose, h⟩ := h
    have hdeclaration := Declaration.progress_reader _ d mid hd
    have hend := forward_closeReader.length_le hclose
    obtain rfl : mid' = rest := by
      split at h
      · cases h
      · cases h
        rfl
    omega

theorem collects_contentReader : Collects turn contentReader :=
  loopOf_of_unfold contentReader_unfold consuming_turn

/-- A block is what stands between its braces, with blanks around it. -/
theorem reader_eq :
    reader = (do
      Token.blank
      .expecting (.char '{') (.char '{')
      let declarations ← contentReader
      Token.blank
      return { declarations }) := by
  unfold reader contentReader
  simp only [Reader.bind_assoc]
  rfl

theorem forward_reader : Forward reader :=
  forward_blank.bind fun _ => ((forward_char '{').expecting _).bind fun _ =>
    Declaration.forward_itemReader.many.bind fun _ => forward_filler.bind fun _ =>
      (forward_char '}').bind fun _ => forward_blank.bind fun _ => forward_pure _

end Block

/-! ## Media queries -/

theorem MediaPart.forward_reader : Forward MediaPart.reader :=
  (forward_group.map _).either (forward_name.map _)

namespace MediaQuery

theorem forward_partReader : Forward partReader :=
  forward_blank.bind fun _ => MediaPart.forward_reader

theorem forward_reader : Forward reader :=
  forward_blank.bind fun _ => (MediaPart.forward_reader.expecting _).bind fun _ =>
    forward_partReader.many.bind fun _ => forward_pure _

theorem IsQuery.ne_nil {u : Text} {q : MediaQuery} (h : IsQuery u q) : u ≠ [] := by
  obtain ⟨hne, hrow⟩ := h
  obtain ⟨parts⟩ := q
  cases hrow with
  | nil => exact absurd rfl hne
  | cons hfirst _ => simp [hfirst.ne_nil]

theorem progress_reader : Progress reader := progress_of_sound reader_sound fun _ _ h => h.ne_nil

end MediaQuery

theorem MediaQueryList.forward_reader : Forward MediaQueryList.reader :=
  (forward_comma.separated MediaQuery.forward_reader).bind fun _ => forward_blank.bind fun _ =>
    forward_pure _

end FilterList.Css
