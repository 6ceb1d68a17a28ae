import FilterList.Proofs.Progress.Fragment
import FilterList.Proofs.Progress.Selector
import FilterList.Proofs.Slicing.Fragment
set_option autoImplicit false

/-!
# The grammar only moves forward

This file gathers what the files before it show of single productions and loops, and draws the
consequence for the errors of the parsers.  An error names the place that reading had come to, and
that place lies in the text because no production ever leaves it.
-/

namespace FilterList.Css

open Reader Text

/-! ## Readers that may fault -/

/-- The reader meets no fault and leaves what stands behind some byte offset of the text. -/
def CheckedReader.Forward {α : Type} (p : CheckedReader α) : Prop :=
  ∀ s, ∃ reply offset, p s = .ok reply ∧ sliceFrom s offset = .ok reply.rest

theorem CheckedReader.forward_ofReader {α : Type} {p : Reader α} (hp : Reader.Forward p) :
    Forward (ofReader p) := by
  intro s
  obtain ⟨offset, hoffset⟩ := hp s
  exact ⟨p s, offset, rfl, hoffset⟩

/-! ## Errors -/

/-- The error repeats the text, and its offset is where `rest` begins in the text. -/
structure SyntaxError.PointsInto (e : SyntaxError) (text rest : Text) : Prop where
  fragment_eq : e.fragment = text
  offset_le : e.offset ≤ byteLength text
  /-- the offset does not lie inside a character -/
  boundary : sliceFrom text e.offset = .ok rest

/-- An error points to what the reader has left of the text. -/
theorem Reader.Forward.pointsInto {α : Type} {kind : FragmentKind} {p : Reader α} (hp : Forward p)
    {text : Text} {e : SyntaxError} (h : p.parseAs kind text = .error e) :
    e.PointsInto text (p text).rest := by
  obtain ⟨taken, htaken⟩ := hp.isSuffix text
  have herror : e.fragment = text ∧ e.offset = byteLength text - byteLength (p text).rest := by
    unfold parseAs readAll at h
    cases hread : p text with
    | failed failure rest =>
      rw [hread] at h
      cases h
      exact ⟨rfl, rfl⟩
    | done a rest =>
      rw [hread] at h
      cases rest with
      | nil => cases h
      | cons c rest =>
        cases h
        exact ⟨rfl, rfl⟩
  have hlength : byteLength text = byteLength taken + byteLength (p text).rest := by
    rw [← byteLength_append, htaken]
  have hoffset : e.offset = byteLength taken := by omega
  exact {
    fragment_eq := herror.1
    offset_le := by omega
    boundary := sliceFrom_of_eq htaken.symm hoffset }

/-- The letter before the bracket takes two bytes. -/
example : Selector.parse "é[ =]".toList =
    .error ⟨.selector, "é[ =]".toList, 4, [.expected .attributeName, .expected .selector]⟩ := rfl

/-! ## The whole grammar -/

/-- Every production leaves a suffix of the text it was given, whether it succeeds or fails.  The
productions of selectors do so however deep lists may still be nested in them. -/
structure ProductionsForward : Prop where
  blank : Forward Token.blank
  name : Forward Token.name
  quoted : Forward Token.quoted
  group : Forward Token.group
  combinator : Forward Combinator.reader
  typeSelector : Forward Node.typeReader
  idSelector : Forward Node.idReader
  classSelector : Forward Node.classReader
  attributeOperator : Forward AttributeOperator.reader
  attributeMatcher : Forward AttributeMatcher.reader
  attributeBody : Forward Attribute.reader
  attributeSelector : Forward Node.attributeReader
  pseudoElement : Forward Node.doubleColonReader
  pseudoClass : ∀ depth, Forward (Node.colonReader (Selector.arguments depth))
  subclass : ∀ depth, Forward (Node.subclassReader (Selector.arguments depth))
  compound : ∀ depth, Forward (Node.compoundReader (Selector.arguments depth))
  complex : ∀ depth relative, Forward (Selector.complexReader (Selector.arguments depth) relative)
  relativeList : ∀ depth, Forward (.separated Token.comma
    (Selector.complexReader (Selector.arguments depth) true))
  selector : Forward Selector.reader
  selectorList : Forward Selector.listReader
  declarationValue : Forward Declaration.valueReader
  declaration : Forward Declaration.reader
  block : Forward Block.reader
  mediaPart : Forward MediaPart.reader
  mediaQuery : Forward MediaQuery.reader
  mediaQueryList : Forward MediaQueryList.reader
  /-- the two productions that cut the text at the offset where a scan stops -/
  checkedGroup : Token.checkedGroup.Forward
  checkedValue : Declaration.checkedValueReader.Forward

/-- The productions of which a loop takes one in each of its turns: they never succeed with
nothing. -/
structure ProductionsProgress : Prop where
  name : Progress Token.name
  compound : ∀ depth, Progress (Node.compoundReader (Selector.arguments depth))
  complex : ∀ depth relative, Progress (Selector.complexReader (Selector.arguments depth) relative)
  declaration : Progress Declaration.reader
  mediaQuery : Progress MediaQuery.reader

/-- Every loop takes something whenever it goes on, ends on every text, and gives what its
production gives. -/
structure LoopsEnd : Prop where
  blank : LoopOf Token.blankTurn () Token.blank
  name : LoopOf Token.nameTurn [] Token.name
  quoted : ∀ quote, Collects (Token.quotedTurn quote) (Token.quotedContent quote)
  compound : ∀ depth, ManyEnds (Node.subclassReader (Selector.arguments depth))
  complex : ∀ depth, ManyEnds (Node.stepReader (Selector.arguments depth))
  relativeList : ∀ depth, ManyEnds do
    Token.comma
    Selector.complexReader (Selector.arguments depth) true
  selectorList : ManyEnds do
    Token.comma
    Selector.outermost
  block : Collects Block.turn Block.contentReader
  /-- the loop reads all that stands between the braces -/
  blockContent : Block.reader = do
    Token.blank
    .expecting (.char '{') (.char '{')
    let declarations ← Block.contentReader
    Token.blank
    return { declarations }
  mediaQuery : ManyEnds do
    Token.blank
    MediaPart.reader
  mediaQueryList : ManyEnds do
    Token.comma
    MediaQuery.reader

/-- Every error of a parser points to where its reader stopped in the text. -/
structure ErrorsPointInto : Prop where
  selector : ∀ text e, Selector.parse text = .error e →
    e.PointsInto text (Selector.reader text).rest
  selectorList : ∀ text e, Selector.parseList text = .error e →
    e.PointsInto text (Selector.listReader text).rest
  block : ∀ text e, Block.parse text = .error e → e.PointsInto text (Block.reader text).rest
  mediaQueryList : ∀ text e, MediaQueryList.parse text = .error e →
    e.PointsInto text (MediaQueryList.reader text).rest

/-- What moving forward means for the grammar as a whole. -/
structure GrammarForward : Prop where
  productions : ProductionsForward
  progress : ProductionsProgress
  loops : LoopsEnd
  errors : ErrorsPointInto

theorem productionsForward : ProductionsForward where
  blank := Token.forward_blank
  name := Token.forward_name
  quoted := Token.forward_quoted
  group := Token.forward_group
  combinator := Combinator.forward_reader
  typeSelector := Node.forward_typeReader
  idSelector := Node.forward_idReader
  classSelector := Node.forward_classReader
  attributeOperator := AttributeOperator.forward_reader
  attributeMatcher := AttributeMatcher.forward_reader
  attributeBody := Attribute.forward_reader
  attributeSelector := Node.forward_attributeReader
  pseudoElement := Node.forward_doubleColonReader
  pseudoClass := fun depth => Node.forward_colonReader (Selector.forward_arguments depth)
  subclass := fun depth => Node.forward_subclassReader (Selector.forward_arguments depth)
  compound := fun depth => Node.forward_compoundReader (Selector.forward_arguments depth)
  complex := fun depth => Selector.forward_complexReader (Selector.forward_arguments depth)
  relativeList := fun depth => Token.forward_comma.separated
    (Selector.forward_complexReader (Selector.forward_arguments depth) true)
  selector := Selector.forward_reader
  selectorList := Selector.forward_listReader
  declarationValue := Declaration.forward_valueReader
  declaration := Declaration.forward_reader
  block := Block.forward_reader
  mediaPart := MediaPart.forward_reader
  mediaQuery := MediaQuery.forward_reader
  mediaQueryList := MediaQueryList.forward_reader
  checkedGroup := Token.checkedGroup_eq ▸ CheckedReader.forward_ofReader Token.forward_group
  checkedValue := Declaration.checkedValueReader_eq ▸
    CheckedReader.forward_ofReader Declaration.forward_valueReader

theorem productionsProgress : ProductionsProgress where
  name := Token.progress_name
  compound := Node.progress_compoundReader
  complex := Selector.progress_complexReader
  declaration := Declaration.progress_reader
  mediaQuery := MediaQuery.progress_reader

theorem loopsEnd : LoopsEnd where
  blank := Token.loopOf_blank
  name := Token.loopOf_name
  quoted := Token.collects_quotedContent
  compound := fun depth => manyEnds (Node.progress_subclassReader (Selector.arguments_sound depth))
  complex := fun depth => manyEnds (Node.progress_stepReader depth)
  relativeList := fun depth => manyEnds (Token.progress_comma
    (Selector.complexReader_sound true (Selector.arguments_sound depth)))
  selectorList := manyEnds (Token.progress_comma
    (Selector.complexReader_sound false (Selector.arguments_sound maxNesting)))
  block := Block.collects_contentReader
  blockContent := Block.reader_eq
  mediaQuery := manyEnds MediaQuery.progress_partReader
  mediaQueryList := manyEnds (Token.progress_comma MediaQuery.reader_sound)

theorem errorsPointInto : ErrorsPointInto where
  selector := fun _ _ => Selector.forward_reader.pointsInto
  selectorList := fun _ _ => Selector.forward_listReader.pointsInto
  block := fun _ _ => Block.forward_reader.pointsInto
  mediaQueryList := fun _ _ => MediaQueryList.forward_reader.pointsInto

/-- Every production only moves forward, every loop ends, and every error points into the text. -/
theorem grammarForward : GrammarForward where
  productions := productionsForward
  progress := productionsProgress
  loops := loopsEnd
  errors := errorsPointInto

end FilterList.Css
