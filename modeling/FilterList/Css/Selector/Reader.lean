import FilterList.Css.Selector.Basic
import FilterList.Css.SyntaxError
set_option autoImplicit false

/-!
# Reading selectors

The productions are built bottom up.  Those that can hold a nested selector list take the reader
of such a list as a parameter; `Selector.arguments` ties the knot, by recursion on how deep
arguments may still be nested.
-/

namespace FilterList.Css

/-- How deep selector lists may be nested in the arguments of pseudo-classes. -/
def maxNesting : Nat := 64

/-- The pseudo-classes whose argument is a list of selectors. -/
def selectorListNames : List Text :=
  ["not".toList, "is".toList, "where".toList, "matches".toList, "has".toList, "-abp-has".toList,
   "if".toList, "if-not".toList]

/-- The argument of the pseudo-class is a list of selectors.  The case of its name does not
matter. -/
def takesSelectors (name : Text) : Bool := selectorListNames.any (Text.eqIgnoreCase · name)

/-- Takes one of the signs `>`, `+` and `~`. -/
def Combinator.reader : Reader Combinator
  | '>' :: rest => .done .child rest
  | '+' :: rest => .done .nextSibling rest
  | '~' :: rest => .done .subsequentSibling rest
  | s => .failed .soft s

namespace Node

/-- Takes `*` or the name of an element. -/
def typeReader : Reader Node
  | '*' :: rest => .done (.type ['*']) rest
  | s => (Node.type <$> Token.name) s

/-- Takes the name of a pseudo-element behind its colons, and its argument if one follows. -/
def pseudoElementReader : Reader Node := do
  let name ← .committed Token.name
  if ← .lookingAt '(' then
    let argument ← .committed Token.group
    return .pseudoElement ⟨name, some argument⟩
  else
    return .pseudoElement ⟨name, none⟩

/-- Takes the name of a pseudo-class behind its colon, and its argument if one follows. -/
def pseudoClassReader (arguments : Reader (List Selector)) : Reader Node := do
  let name ← .expecting .pseudoClassName (.committed Token.name)
  if ← .lookingAt '(' then
    if takesSelectors name then
      let list ← arguments
      return .pseudoClass name (.selectors list)
    else
      let text ← .expecting (.char ')') (.committed Token.group)
      return .pseudoClass name (.verbatim text)
  else
    return .pseudoClass name .absent

/-- Takes a simple selector other than the name of an element.  Its first characters decide which
kind it is. -/
def subclassReader (arguments : Reader (List Selector)) : Reader Node
  | '#' :: rest => (Node.id <$> Reader.committed Token.name) rest
  | '.' :: rest => (Node.className <$> Reader.committed Token.name) rest
  | '[' :: rest => (Node.attr <$> Reader.committed Attribute.reader) rest
  | ':' :: ':' :: rest => pseudoElementReader rest
  | ':' :: rest => pseudoClassReader arguments rest
  | s => .failed .soft s

/-- Takes a compound: the name of an element, if there is one, and simple selectors directly behind
it, at least one node in all. -/
def compoundReader (arguments : Reader (List Selector)) : Reader (List Node) := do
  let type ← .attempt typeReader
  let others ← .many (subclassReader arguments)
  match type.toList ++ others with
  | [] => .fail
  | nodes => return nodes

/-- Takes the compound behind the sign of a combinator, which has to be there. -/
def afterSignReader (arguments : Reader (List Selector)) (sign : Combinator) :
    Reader (List Node) := do
  Token.blank
  let nodes ← .expecting .selectorAfterCombinator (.committed (compoundReader arguments))
  return .combinator sign :: nodes

/-- Takes the compound behind blanks that stand for the descendant combinator. -/
def descendantReader (arguments : Reader (List Selector)) : Reader (List Node) := do
  let nodes ← compoundReader arguments
  return .combinator .descendant :: nodes

/-- Takes a combinator and the compound behind it.  Blanks alone are the descendant combinator, but
only if a compound follows them. -/
def stepReader (arguments : Reader (List Selector)) : Reader (List Node) := fun s =>
  let start := Token.skipBlank s
  match Combinator.reader start with
  | .done sign rest => afterSignReader arguments sign rest
  | .failed _ _ =>
    if start.length < s.length then descendantReader arguments start else .failed .soft s

/-- Takes a combinator at the front of a relative selector, with the blanks behind it. -/
def leadReader : Reader (List Node) := do
  match ← .attempt Combinator.reader with
  | some sign => do
    Token.blank
    return [.combinator sign]
  | none => return []

end Node

namespace Selector

/-- Takes a selector; a relative one may start with a combinator. -/
def complexReader (arguments : Reader (List Selector)) (relative : Bool) : Reader Selector := do
  Token.blank
  let lead ← if relative then Node.leadReader else pure []
  let first ← .expecting .selector (Node.compoundReader arguments)
  let steps ← .many (Node.stepReader arguments)
  return ⟨lead ++ first ++ steps.flatten⟩

/-- Takes a parenthesised list of relative selectors, in which lists may be nested `depth - 1`
deep.  At depth zero it stops before the parenthesis. -/
def arguments : Nat → Reader (List Selector)
  | 0 => .committed .fail
  | depth + 1 => do
    .char '('
    let list ← .committed (.separated Token.comma (complexReader (arguments depth) true))
    Token.blank
    .expecting (.char ')') (.committed (.char ')'))
    return list

/-- Takes a selector that is not relative, with the nesting that is allowed at the top. -/
def outermost : Reader Selector := complexReader (arguments maxNesting) false

/-- Takes a selector and the blanks behind it. -/
def reader : Reader Selector := do
  let selector ← outermost
  Token.blank
  return selector

/-- Takes a list of selectors and the blanks behind it. -/
def listReader : Reader (List Selector) := do
  let list ← .separated Token.comma outermost
  Token.blank
  return list

/-- Reads a text that is one selector. -/
def parse (text : Text) : Except SyntaxError Selector := reader.parseAs .selector text

/-- Reads a text that is a list of selectors. -/
def parseList (text : Text) : Except SyntaxError (List Selector) :=
  listReader.parseAs .selector text

end Selector

end FilterList.Css
