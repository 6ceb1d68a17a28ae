import FilterList.Injection.Parts
set_option autoImplicit false

/-!
# The AdGuard form of a style injection

`selectors { declarations }`, or the same inside `@media queries { … }`.  A lone `remove: true;`
stands for the removal of the elements.
-/

namespace FilterList.Injection.AdGuard

open Css

/-! ## The form -/

/-- The texts that make up an injection in this form. -/
structure Parts where
  mediaQueries : Option Text
  selectors : Text
  /-- what stands between the braces of the block -/
  content : Text
  deriving DecidableEq, Repr, Inhabited

/-- The word that opens a media rule. -/
def mediaWord : Text := "@media".toList

/-- Splits `selectors { content }`, which has to end with the brace. -/
def splitRule (mediaQueries : Option Text) (text : Text) : Option Parts := do
  let cut ← Text.cutBare '{' text
  let content ← Text.beforeFinal? '}' cut.after
  return { mediaQueries, selectors := Text.trim cut.before, content }

/-- Splits a text into its parts, with or without a media rule around them. -/
def split (text : Text) : Option Parts :=
  let trimmed := Text.trim text
  match Text.after? mediaWord trimmed with
  | some rest => do
    let cut ← Text.cutBare '{' rest
    let inner ← Text.beforeFinal? '}' cut.after
    splitRule (some (Text.trim cut.before)) (Text.trim inner)
  | none => splitRule none trimmed

/-- The parts belong to an injection: there are selectors, and there is a declaration. -/
def Parts.isInjection (parts : Parts) : Bool :=
  !parts.selectors.isEmpty && !isBlankContent (Text.trim parts.content)

/-- The parts of a text that has the form of an injection. -/
def parts? (text : Text) : Option Parts := (split text).filter Parts.isInjection

/-- The text has the form of an injection. -/
def recognizes (text : Text) : Bool := (parts? text).isSome

/-! ## Reading -/

/-- The property that asks for removal. -/
def removeProperty : Text := "remove".toList

/-- The value with which it asks for removal. -/
def removeValue : Text := "true".toList

/-- The declaration asks for the removal of the elements. -/
def asksRemoval (d : Declaration) : Bool :=
  Text.eqIgnoreCase d.property removeProperty && d.value == removeValue

/-- What a block does.  A removal has to stand alone; `text` is for the error. -/
def effectOf (text : Text) (block : Block) : Except InjectionError Effect :=
  match block.declarations.countP asksRemoval with
  | 0 => .ok (.style block)
  | 1 => if block.declarations.length = 1 then .ok .remove else .error (.mixedRemoval text)
  | _ => .error (.repeatedRemoval text)

/-- Reads the media queries of an injection, if there are any. -/
def parseMediaQueries : Option Text → Except InjectionError (Option MediaQueryList)
  | none => .ok none
  | some text => ((MediaQueryList.parse text).map some).mapError .invalidMediaQuery

/-- Reads an injection from its parts.  Of several faults the first in the text is reported. -/
def ofParts (text : Text) (parts : Parts) : Except InjectionError Injection := do
  let mediaQueries ← parseMediaQueries parts.mediaQueries
  let selectors ← parseSelectors parts.selectors
  let block ← parseContent parts.content
  let effect ← effectOf text block
  return { mediaQueries, selectors, effect }

/-- Reads a text that is an injection in this form. -/
def parse (text : Text) : Except InjectionError Injection :=
  match parts? text with
  | some parts => ofParts text parts
  | none => .error (.unrecognized text)

/-! ## Writing -/

/-- What stands between the braces for an effect. -/
def renderEffect : Effect → Text
  | .remove => removeProperty ++ [':', ' '] ++ removeValue ++ [';']
  | .style block => block.renderDeclarations

/-- A text with braces around its second part. -/
def braced (head content : Text) : Text := head ++ [' ', '{', ' '] ++ content ++ [' ', '}']

/-- The written form of an injection. -/
def render (i : Injection) : Text :=
  let rule := braced (Selector.renderList i.selectors) (renderEffect i.effect)
  match i.mediaQueries with
  | none => rule
  | some list => braced (mediaWord ++ ' ' :: list.render) rule

end FilterList.Injection.AdGuard
