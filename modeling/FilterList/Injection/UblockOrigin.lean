import FilterList.Injection.Parts
set_option autoImplicit false

/-!
# The uBlock Origin form of a style injection

`selectors:style(declarations)` and `selectors:remove()`.  The mark that counts is the last one
outside brackets, and its group has to end the text.
-/

namespace FilterList.Injection.UblockOrigin

open Css

/-! ## The form -/

/-- The marks that end the selectors. -/
inductive Mark where
  | style
  | remove
  deriving DecidableEq, Repr, Inhabited

/-- The written form of a mark, without the group behind it. -/
def Mark.render : Mark → Text
  | style => ":style".toList
  | remove => ":remove".toList

/-- The mark at the front of a text, if a group opens behind it, with the text from that group
on. -/
def Mark.read? (text : Text) : Option (Mark × Text) :=
  match Text.after? (Mark.style.render ++ ['(']) text with
  | some rest => some (.style, '(' :: rest)
  | none =>
    match Text.after? (Mark.remove.render ++ ['(']) text with
    | some rest => some (.remove, '(' :: rest)
    | none => none

/-- A text cut at a mark. -/
structure MarkCut where
  /-- what stands before the mark -/
  before : Text
  mark : Mark
  /-- the text from the parenthesis on -/
  group : Text
  deriving DecidableEq, Repr, Inhabited

/-- The same cut in the text with `c` put in front. -/
def MarkCut.shift (c : Char) (cut : MarkCut) : MarkCut := { cut with before := c :: cut.before }

/-- The depth of brackets after one bare character; a bracket that closes nothing is passed over. -/
def depthAfter (depth : Nat) (c : Char) : Nat :=
  if c = '(' ∨ c = '[' then depth + 1
  else if c = ')' ∨ c = ']' then depth - 1
  else depth

/-- Cuts the text at its last mark that is bare and outside brackets. -/
def cutLastMark : Nat → Text.Quotation → Text → Option MarkCut
  | _, _, [] => none
  | depth, q, '\\' :: c :: rest =>
    (cutLastMark depth q rest).map fun cut => (cut.shift c).shift '\\'
  | depth, q, c :: rest =>
    if q.bare c then
      match cutLastMark (depthAfter depth c) q rest with
      | some cut => some (cut.shift c)
      | none =>
        if depth = 0 then (Mark.read? (c :: rest)).map fun (mark, group) => ⟨[], mark, group⟩
        else none
    else (cutLastMark depth (q.next c) rest).map (MarkCut.shift c)

/-- The texts that make up an injection in this form. -/
structure Parts where
  selectors : Text
  mark : Mark
  /-- what stands in the parentheses, trimmed -/
  content : Text
  deriving DecidableEq, Repr, Inhabited

/-- Splits a text into its parts. -/
def split (text : Text) : Option Parts := do
  let cut ← cutLastMark 0 none (Text.trim text)
  let (content, rest) ← Text.group? cut.group
  if rest.isEmpty then
    return { selectors := Text.trim cut.before, mark := cut.mark, content := Text.trim content }
  else none

/-- The parts belong to an injection: there are selectors, a style has a declaration, and a removal
has nothing in its parentheses. -/
def Parts.isInjection (parts : Parts) : Bool :=
  !parts.selectors.isEmpty &&
    match parts.mark with
    | .style => !isBlankContent parts.content
    | .remove => parts.content.isEmpty

/-- The parts of a text that has the form of an injection. -/
def parts? (text : Text) : Option Parts := (split text).filter Parts.isInjection

/-- The text has the form of an injection. -/
def recognizes (text : Text) : Bool := (parts? text).isSome

/-! ## Reading -/

/-- What the mark does. -/
def effectOf : Mark → Text → Except InjectionError Effect
  | .remove, _ => .ok .remove
  | .style, content => (parseContent content).map .style

/-- Reads an injection from its parts.  Of several faults the first in the text is reported. -/
def ofParts (parts : Parts) : Except InjectionError Injection := do
  let selectors ← parseSelectors parts.selectors
  let effect ← effectOf parts.mark parts.content
  return { mediaQueries := none, selectors, effect }

/-- Reads a text that has the form of an injection; any other text gives none. -/
def parse (text : Text) : Except InjectionError (Option Injection) :=
  match parts? text with
  | some parts => (ofParts parts).map some
  | none => .ok none

/-! ## Writing -/

/-- The mark of an effect, with its group. -/
def renderEffect : Effect → Text
  | .remove => Mark.remove.render ++ ['(', ')']
  | .style block => Mark.style.render ++ '(' :: block.renderDeclarations ++ [')']

/-- The written form of an injection.  There is none for media queries. -/
def render (i : Injection) : Except InjectionError Text :=
  if i.mediaQueries.isSome then .error (.mediaQueryUnsupported .ublockOrigin)
  else .ok (Selector.renderList i.selectors ++ renderEffect i.effect)

end FilterList.Injection.UblockOrigin
