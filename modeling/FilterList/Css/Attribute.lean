import FilterList.Css.Token
set_option autoImplicit false

/-!
# Attribute selectors

`[name]`, `[name="value"]`, `[name^=value i]`.  A string value is kept as it is written between
double quotes, escapes included, so writing it back needs no escaping.
-/

namespace FilterList.Css

/-- How the value of an attribute is compared. -/
inductive AttributeOperator where
  /-- `=`: the value is equal -/
  | equals
  /-- `~=`: one of the words is equal -/
  | includes
  /-- `|=`: the value is equal, or goes on with a hyphen -/
  | dashMatch
  /-- `^=`: the value starts so -/
  | startsWith
  /-- `$=`: the value ends so -/
  | endsWith
  /-- `*=`: the value has it somewhere -/
  | contains
  deriving DecidableEq, Repr, Inhabited

/-- The value that an attribute is compared with. -/
inductive AttributeValue where
  /-- the content of a string, as it is written between double quotes -/
  | string (content : Text)
  /-- a name without quotes -/
  | identifier (name : Text)
  deriving DecidableEq, Repr, Inhabited

/-- A comparison with a value. -/
structure AttributeMatcher where
  operator : AttributeOperator
  value : AttributeValue
  deriving DecidableEq, Repr, Inhabited

/-- An attribute selector. -/
structure Attribute where
  name : Text
  matcher : Option AttributeMatcher
  /-- the flags behind a comparison, such as `i` -/
  flags : Option Text
  deriving DecidableEq, Repr, Inhabited

/-! ## Writing -/

/-- The written form of an operator. -/
def AttributeOperator.render : AttributeOperator → Text
  | equals => ['=']
  | includes => ['~', '=']
  | dashMatch => ['|', '=']
  | startsWith => ['^', '=']
  | endsWith => ['$', '=']
  | contains => ['*', '=']

/-- The written form of a value; strings are put between double quotes. -/
def AttributeValue.render : AttributeValue → Text
  | string content => '"' :: content ++ ['"']
  | identifier name => name

/-- The written form of a comparison. -/
def AttributeMatcher.render (m : AttributeMatcher) : Text := m.operator.render ++ m.value.render

namespace Attribute

/-- The written form of the flags, with the blank before them. -/
def renderFlags : Option Text → Text
  | none => []
  | some flags => ' ' :: flags

/-- The written form of an attribute selector.  Flags are written only behind a comparison. -/
def render (a : Attribute) : Text :=
  match a.matcher with
  | none => '[' :: a.name ++ [']']
  | some m => '[' :: a.name ++ m.render ++ renderFlags a.flags ++ [']']

/-- The content of a double-quoted string that stands for `value`: quotes and backslashes are
escaped. -/
def quote : Text → Text
  | [] => []
  | c :: rest => if c = '"' ∨ c = '\\' then '\\' :: c :: quote rest else c :: quote rest

/-- The selector `[name="value"]`. -/
def ofValue (name value : Text) : Attribute :=
  { name, matcher := some ⟨.equals, .string (quote value)⟩, flags := none }

end Attribute

/-! ## Reading -/

/-- Takes an operator. -/
def AttributeOperator.reader : Reader AttributeOperator
  | '~' :: '=' :: rest => .done .includes rest
  | '|' :: '=' :: rest => .done .dashMatch rest
  | '^' :: '=' :: rest => .done .startsWith rest
  | '$' :: '=' :: rest => .done .endsWith rest
  | '*' :: '=' :: rest => .done .contains rest
  | '=' :: rest => .done .equals rest
  | s => .failed .soft s

/-- Takes a value: a quoted string or a name. -/
def AttributeValue.reader : Reader AttributeValue :=
  .either (AttributeValue.string <$> Token.quoted) (AttributeValue.identifier <$> Token.name)

/-- Takes a comparison.  After the operator there has to be a value. -/
def AttributeMatcher.reader : Reader AttributeMatcher := do
  let operator ← AttributeOperator.reader
  Token.blank
  let value ← .committed (.expecting .attributeValue AttributeValue.reader)
  return { operator, value }

namespace Attribute

/-- Takes the flags behind a comparison, if there are any. -/
def flagsReader : Option AttributeMatcher → Reader (Option Text)
  | none => pure none
  | some _ => do
    Token.blank
    .attempt Token.name

/-- Takes an attribute selector behind its `[`, the closing bracket included. -/
def reader : Reader Attribute := do
  Token.blank
  let name ← .expecting .attributeName Token.name
  Token.blank
  let matcher ← .attempt AttributeMatcher.reader
  let flags ← flagsReader matcher
  Token.blank
  .expecting (.char ']') (.char ']')
  return { name, matcher, flags }

end Attribute

end FilterList.Css
