import FilterList.Css.SyntaxError
import FilterList.Css.Token
import FilterList.Text.WhiteSpace
set_option autoImplicit false

/-!
# Declaration blocks

`{ padding: 0 !important; color: red; }`.  The value of a declaration runs to the first semicolon
or closing brace that is bare and not nested in brackets.  It is kept trimmed, with a final
`!important` taken off and remembered apart.
-/

namespace FilterList.Css

/-- A declaration; its value is kept without `!important`. -/
structure Declaration where
  property : Text
  value : Text
  important : Bool
  deriving DecidableEq, Repr, Inhabited

/-- A declaration block. -/
structure Block where
  declarations : List Declaration
  deriving DecidableEq, Repr, Inhabited

namespace Declaration

/-- A declaration that is not important. -/
def ofValue (property value : Text) : Declaration := ⟨property, value, false⟩

/-- The same declaration, made important. -/
def markImportant (d : Declaration) : Declaration := { d with important := true }

/-! ## Writing -/

/-- The written form of a declaration, the semicolon included. -/
def render (d : Declaration) : Text :=
  d.property ++ [':', ' '] ++ d.value ++ (if d.important then " !important".toList else []) ++ [';']

end Declaration

namespace Block

/-- The declarations of a block without the braces. -/
def renderDeclarations (b : Block) : Text :=
  List.intercalate [' '] (b.declarations.map Declaration.render)

/-- The written form of a block. -/
def render (b : Block) : Text :=
  if b.declarations.isEmpty then ['{', '}']
  else ['{', ' '] ++ b.renderDeclarations ++ [' ', '}']

end Block

/-! ## Reading -/

namespace Declaration

/-- The depth of brackets after one bare character of a value; what ends the value is refused. -/
def valueStep (depth : Nat) (c : Char) : Option Nat :=
  if c = '(' ∨ c = '[' then some (depth + 1)
  else if c = ')' ∨ c = ']' then
    match depth with
    | 0 => none
    | d + 1 => some d
  else if c = ';' ∨ c = '}' then
    match depth with
    | 0 => none
    | d + 1 => some (d + 1)
  else some depth

/-- Splits a text into the value at its front and what ends it: the first bare semicolon or closing
brace outside brackets, or a bracket that closes nothing. -/
def spanValue (s : Text) : Text × Text := Text.breakBare valueStep 0 none s

/-- The word of the flag that makes a declaration important. -/
def importantWord : Text := "important".toList

/-- Splits a written value into the value proper and whether it is flagged as important. -/
def splitImportant (written : Text) : Text × Bool :=
  let value := Text.trim written
  match Text.cutLast '!' value with
  | some cut =>
    if Text.eqIgnoreCase (Text.trimStart cut.after) importantWord then
      (Text.trimEnd cut.before, true)
    else (value, false)
  | none => (value, false)

/-- A custom property: its name starts with two hyphens, and its value may be empty. -/
def isCustomProperty (property : Text) : Bool := (Text.after? ['-', '-'] property).isSome

/-- Takes a value up to where it ends; never fails. -/
def valueReader : Reader Text := fun s => .done (spanValue s).1 (spanValue s).2

/-- Takes a declaration without what ends it. -/
def reader : Reader Declaration := do
  let property ← .expecting .propertyName Token.name
  Token.blank
  .expecting (.char ':') (.committed (.char ':'))
  let written ← valueReader
  let (value, important) := splitImportant written
  if value.isEmpty && !isCustomProperty property then
    .committed .fail
  else
    return { property, value, important }

/-- Takes the semicolon behind a declaration, or stops before the brace that closes the block. -/
def endReader : Reader Unit
  | ';' :: rest => .done () rest
  | '}' :: rest => .done () ('}' :: rest)
  | s => .failed ⟨true, [.expected (.char ';')]⟩ s

/-- Takes a declaration with what stands before it in a block and the semicolon behind it.  Unless
the block closes here, there has to be a declaration. -/
def itemReader : Reader Declaration := do
  Token.filler
  if ← .lookingAt '}' then .fail
  else
    let declaration ← .noting .inDeclaration (.committed reader)
    endReader
    return declaration

end Declaration

namespace Block

/-- Takes a block with the blanks around it. -/
def reader : Reader Block := do
  Token.blank
  .expecting (.char '{') (.char '{')
  let declarations ← .many Declaration.itemReader
  Token.filler
  .char '}'
  Token.blank
  return { declarations }

/-- Reads a text that is a declaration block. -/
def parse (text : Text) : Except SyntaxError Block := reader.parseAs .block text

end Block

end FilterList.Css
