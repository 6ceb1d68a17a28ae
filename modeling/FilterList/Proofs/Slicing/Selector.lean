import FilterList.Css.Selector.Reader
import FilterList.Proofs.Slicing.Fragment
set_option autoImplicit false

/-!
# Selectors by offsets

A selector can hold a verbatim group, as the argument of a pseudo-element or of a pseudo-class, and
through the lists in arguments any number of them.  The reader of the nested lists is again a
parameter, and the recursion on the nesting carries the freedom from faults from each level to the
next.
-/

namespace FilterList.Css

open CheckedReader (ofReader ofReader_bind ofReader_committed ofReader_expecting ofReader_many
  ofReader_separated ofReader_parseAs)
open Text (Checked)

namespace Node

/-- Takes the name of a pseudo-element behind its colons, and its argument if one follows. -/
def checkedPseudoElementReader : CheckedReader Node := do
  let name ← ofReader (.committed Token.name)
  if ← ofReader (.lookingAt '(') then
    let argument ← .committed Token.checkedGroup
    return .pseudoElement ⟨name, some argument⟩
  else
    return .pseudoElement ⟨name, none⟩

theorem checkedPseudoElementReader_eq :
    checkedPseudoElementReader = ofReader pseudoElementReader := by
  unfold checkedPseudoElementReader pseudoElementReader
  rw [Token.checkedGroup_eq, ofReader_committed]
  refine ofReader_bind fun name => ofReader_bind fun opens => ?_
  cases opens with
  | true => exact ofReader_bind fun argument => rfl
  | false => rfl

section

variable (arguments : CheckedReader (List Selector))

/-- Takes the name of a pseudo-class behind its colon, and its argument if one follows. -/
def checkedPseudoClassReader : CheckedReader Node := do
  let name ← ofReader (.expecting .pseudoClassName (.committed Token.name))
  if ← ofReader (.lookingAt '(') then
    if takesSelectors name then
      let list ← arguments
      return .pseudoClass name (.selectors list)
    else
      let text ← .expecting (.char ')') (.committed Token.checkedGroup)
      return .pseudoClass name (.verbatim text)
  else
    return .pseudoClass name .absent

/-- Takes a simple selector other than the name of an element. -/
def checkedSubclassReader : CheckedReader Node
  | '#' :: rest => ofReader (Node.id <$> Reader.committed Token.name) rest
  | '.' :: rest => ofReader (Node.className <$> Reader.committed Token.name) rest
  | '[' :: rest => ofReader (Node.attr <$> Reader.committed Attribute.reader) rest
  | ':' :: ':' :: rest => checkedPseudoElementReader rest
  | ':' :: rest => checkedPseudoClassReader arguments rest
  | s => .ok (.failed .soft s)

/-- Takes a compound: the name of an element, if there is one, and simple selectors directly behind
it, at least one node in all. -/
def checkedCompoundReader : CheckedReader (List Node) := do
  let type ← ofReader (.attempt typeReader)
  let others ← .many (checkedSubclassReader arguments)
  match type.toList ++ others with
  | [] => ofReader .fail
  | nodes => return nodes

/-- Takes the compound behind the sign of a combinator, which has to be there. -/
def checkedAfterSignReader (sign : Combinator) : CheckedReader (List Node) := do
  ofReader Token.blank
  let nodes ← .expecting .selectorAfterCombinator (.committed (checkedCompoundReader arguments))
  return .combinator sign :: nodes

/-- Takes the compound behind blanks that stand for the descendant combinator. -/
def checkedDescendantReader : CheckedReader (List Node) := do
  let nodes ← checkedCompoundReader arguments
  return .combinator .descendant :: nodes

/-- Takes a combinator and the compound behind it. -/
def checkedStepReader : CheckedReader (List Node) := fun s =>
  let start := Token.skipBlank s
  match Combinator.reader start with
  | .done sign rest => checkedAfterSignReader arguments sign rest
  | .failed _ _ =>
    if start.length < s.length then checkedDescendantReader arguments start
    else .ok (.failed .soft s)

end

section

variable (arguments : Reader (List Selector))

theorem checkedPseudoClassReader_eq :
    checkedPseudoClassReader (ofReader arguments) = ofReader (pseudoClassReader arguments) := by
  unfold checkedPseudoClassReader pseudoClassReader
  rw [Token.checkedGroup_eq, ofReader_committed, ofReader_expecting]
  refine ofReader_bind fun name => ofReader_bind fun opens => ?_
  cases opens with
  | false => rfl
  | true =>
    cases hname : takesSelectors name with
    | true => exact ofReader_bind fun list => rfl
    | false => exact ofReader_bind fun text => rfl

theorem checkedSubclassReader_eq :
    checkedSubclassReader (ofReader arguments) = ofReader (subclassReader arguments) := by
  funext s
  show checkedSubclassReader (ofReader arguments) s = .ok (subclassReader arguments s)
  fun_cases subclassReader arguments s with
  | case1 rest => rfl
  | case2 rest => rfl
  | case3 rest => rfl
  | case4 rest => exact congrFun checkedPseudoElementReader_eq rest
  | case5 rest hcolon =>
    rw [checkedSubclassReader]
    · exact congrFun (checkedPseudoClassReader_eq arguments) rest
    · exact hcolon
  | case6 s hid hclass hattr helement hpseudo =>
    rw [checkedSubclassReader] <;> assumption

theorem checkedCompoundReader_eq :
    checkedCompoundReader (ofReader arguments) = ofReader (compoundReader arguments) := by
  unfold checkedCompoundReader compoundReader
  rw [checkedSubclassReader_eq, ofReader_many]
  refine ofReader_bind fun type => ofReader_bind fun others => ?_
  cases type.toList ++ others <;> rfl

theorem checkedAfterSignReader_eq (sign : Combinator) :
    checkedAfterSignReader (ofReader arguments) sign =
      ofReader (afterSignReader arguments sign) := by
  unfold checkedAfterSignReader afterSignReader
  rw [checkedCompoundReader_eq, ofReader_committed, ofReader_expecting]
  exact ofReader_bind fun _ => ofReader_bind fun nodes => rfl

theorem checkedDescendantReader_eq :
    checkedDescendantReader (ofReader arguments) = ofReader (descendantReader arguments) := by
  unfold checkedDescendantReader descendantReader
  rw [checkedCompoundReader_eq]
  exact ofReader_bind fun nodes => rfl

theorem checkedStepReader_eq :
    checkedStepReader (ofReader arguments) = ofReader (stepReader arguments) := by
  funext s
  show checkedStepReader (ofReader arguments) s = .ok (stepReader arguments s)
  simp only [checkedStepReader, stepReader]
  cases Combinator.reader (Token.skipBlank s) with
  | done sign rest => exact congrFun (checkedAfterSignReader_eq arguments sign) rest
  | failed failure rest =>
    dsimp only
    split
    · exact congrFun (checkedDescendantReader_eq arguments) (Token.skipBlank s)
    · rfl

end

end Node

namespace Selector

/-- Takes a selector; a relative one may start with a combinator. -/
def checkedComplexReader (arguments : CheckedReader (List Selector)) (relative : Bool) :
    CheckedReader Selector := do
  ofReader Token.blank
  let lead ← ofReader (if relative then Node.leadReader else pure [])
  let first ← .expecting .selector (Node.checkedCompoundReader arguments)
  let steps ← .many (Node.checkedStepReader arguments)
  return ⟨lead ++ first ++ steps.flatten⟩

/-- Takes a parenthesised list of relative selectors, in which lists may be nested `depth - 1`
deep. -/
def checkedArguments : Nat → CheckedReader (List Selector)
  | 0 => ofReader (.committed .fail)
  | depth + 1 => do
    ofReader (.char '(')
    let list ←
      .committed (.separated Token.comma (checkedComplexReader (checkedArguments depth) true))
    ofReader Token.blank
    ofReader (.expecting (.char ')') (.committed (.char ')')))
    return list

/-- Takes a selector that is not relative, with the nesting that is allowed at the top. -/
def checkedOutermost : CheckedReader Selector :=
  checkedComplexReader (checkedArguments maxNesting) false

/-- Takes a selector and the blanks behind it. -/
def checkedReader : CheckedReader Selector := do
  let selector ← checkedOutermost
  ofReader Token.blank
  return selector

/-- Takes a list of selectors and the blanks behind it. -/
def checkedListReader : CheckedReader (List Selector) := do
  let list ← .separated Token.comma checkedOutermost
  ofReader Token.blank
  return list

/-- Reads a text that is one selector. -/
def checkedParse (text : Text) : Checked (Except SyntaxError Selector) :=
  checkedReader.parseAs .selector text

/-- Reads a text that is a list of selectors. -/
def checkedParseList (text : Text) : Checked (Except SyntaxError (List Selector)) :=
  checkedListReader.parseAs .selector text

theorem checkedComplexReader_eq (arguments : Reader (List Selector)) (relative : Bool) :
    checkedComplexReader (ofReader arguments) relative =
      ofReader (complexReader arguments relative) := by
  unfold checkedComplexReader complexReader
  rw [Node.checkedCompoundReader_eq, ofReader_expecting, Node.checkedStepReader_eq, ofReader_many]
  cases relative with
  | true => exact ofReader_bind fun _ => ofReader_bind fun lead => ofReader_bind fun first =>
      ofReader_bind fun steps => rfl
  | false => exact ofReader_bind fun _ => ofReader_bind fun lead => ofReader_bind fun first =>
      ofReader_bind fun steps => rfl

/-- No level of nesting faults if the levels inside do not. -/
theorem checkedArguments_eq (depth : Nat) :
    checkedArguments depth = ofReader (arguments depth) := by
  induction depth with
  | zero => rfl
  | succ depth ih =>
    unfold checkedArguments arguments
    rw [ih, checkedComplexReader_eq, ofReader_separated, ofReader_committed]
    exact ofReader_bind fun _ => ofReader_bind fun list => ofReader_bind fun _ =>
      ofReader_bind fun _ => rfl

theorem checkedOutermost_eq : checkedOutermost = ofReader outermost := by
  rw [checkedOutermost, checkedArguments_eq, checkedComplexReader_eq]
  rfl

theorem checkedParse_eq (text : Text) : checkedParse text = .ok (parse text) := by
  have hreader : checkedReader = ofReader reader := by
    unfold checkedReader reader
    rw [checkedOutermost_eq]
    exact ofReader_bind fun selector => ofReader_bind fun _ => rfl
  rw [checkedParse, hreader]
  exact ofReader_parseAs .selector reader text

theorem checkedParseList_eq (text : Text) : checkedParseList text = .ok (parseList text) := by
  have hreader : checkedListReader = ofReader listReader := by
    unfold checkedListReader listReader
    rw [checkedOutermost_eq, ofReader_separated]
    exact ofReader_bind fun list => ofReader_bind fun _ => rfl
  rw [checkedParseList, hreader]
  exact ofReader_parseAs .selector listReader text

end Selector

end FilterList.Css
