import FilterList.Text.Escape
import FilterList.Text.WhiteSpace
set_option autoImplicit false

/-!
# Modifiers of network rules

`script,~third-party,domain=example.com`.  Escapes are kept as they are written, so writing a
modifier back needs no escaping.
-/

namespace FilterList

/-- A modifier: `name`, `~name` or `name=value`. -/
structure Modifier where
  name : Text
  value : Option Text
  negated : Bool
  deriving DecidableEq, Repr, Inhabited

namespace Modifier

/-- A modifier that is only a name. -/
def ofName (name : Text) : Modifier := ⟨name, none, false⟩

/-- The same modifier with a value. -/
def withValue (m : Modifier) (value : Text) : Modifier := { m with value := some value }

/-- The same modifier, negated. -/
def negate (m : Modifier) : Modifier := { m with negated := true }

/-! ## Writing -/

/-- The written form of a modifier. -/
def render (m : Modifier) : Text :=
  (if m.negated then ['~'] else []) ++ m.name ++
    match m.value with
    | none => []
    | some value => '=' :: value

/-- The written form of a list of modifiers. -/
def renderList (list : List Modifier) : Text := List.intercalate [','] (list.map render)

/-! ## Reading -/

/-- Reads a modifier without its negation sign: the first unescaped `=` starts the value. -/
def parseBody (negated : Bool) (text : Text) : Modifier :=
  match Text.cutUnescaped '=' text with
  | some cut => ⟨Text.trim cut.before, some (Text.trim cut.after), negated⟩
  | none => ⟨text, none, negated⟩

/-- Reads a modifier. -/
def parse (text : Text) : Modifier :=
  match Text.after? ['~'] text with
  | some rest => parseBody true (Text.trim rest)
  | none => parseBody false text

/-- Reads a list of modifiers, separated by unescaped commas.  Empty entries are skipped. -/
def parseList (text : Text) : List Modifier :=
  (((Text.splitUnescaped ',' text).map Text.trim).filter fun piece => !piece.isEmpty).map parse

end Modifier

end FilterList
