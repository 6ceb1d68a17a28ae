import FilterList.Css.SyntaxError
import FilterList.Css.Token
import FilterList.Text.WhiteSpace
set_option autoImplicit false

/-!
# Media queries

`screen and (min-width: 1024px), print`.  A query is a sequence of keywords and parenthesised
features.  What stands in parentheses and is no plain feature is kept, trimmed.
-/

namespace FilterList.Css

/-- One part of a media query. -/
inductive MediaPart where
  /-- `screen`, `and`, `not`, `only` -/
  | keyword (name : Text)
  /-- `(min-width: 1024px)` or `(color)` -/
  | feature (name : Text) (value : Option Text)
  /-- any other group, such as `(400px <= width)` -/
  | verbatim (text : Text)
  deriving DecidableEq, Repr, Inhabited

/-- A media query: its parts in order. -/
structure MediaQuery where
  parts : List MediaPart
  deriving DecidableEq, Repr, Inhabited

/-- A list of media queries. -/
structure MediaQueryList where
  queries : List MediaQuery
  deriving DecidableEq, Repr, Inhabited

/-! ## Writing -/

/-- The written form of a part; a feature has no blank behind its colon. -/
def MediaPart.render : MediaPart → Text
  | keyword name => name
  | feature name none => '(' :: name ++ [')']
  | feature name (some value) => '(' :: name ++ ':' :: value ++ [')']
  | verbatim text => '(' :: text ++ [')']

/-- The written form of a query. -/
def MediaQuery.render (q : MediaQuery) : Text :=
  List.intercalate [' '] (q.parts.map MediaPart.render)

/-- The written form of a list of queries. -/
def MediaQueryList.render (l : MediaQueryList) : Text :=
  List.intercalate [','] (l.queries.map MediaQuery.render)

/-! ## Reading -/

namespace MediaPart

/-- What the content of a group is: a feature with a value, a feature without one, or anything
else. -/
def ofGroup (content : Text) : MediaPart :=
  let text := Text.trim content
  match Text.cutFirst ':' text with
  | some cut =>
    let name := Text.trim cut.before
    let value := Text.trim cut.after
    if Token.isPlainName name && !value.isEmpty then .feature name (some value) else .verbatim text
  | none => if Token.isPlainName text then .feature text none else .verbatim text

/-- Takes a group or a keyword. -/
def reader : Reader MediaPart :=
  .either (MediaPart.ofGroup <$> Token.group) (MediaPart.keyword <$> Token.name)

end MediaPart

/-- Takes a query with the blanks before it. -/
def MediaQuery.reader : Reader MediaQuery := do
  Token.blank
  let first ← .expecting .mediaQuery MediaPart.reader
  let others ← .many do
    Token.blank
    MediaPart.reader
  return ⟨first :: others⟩

/-- Takes a list of queries and the blanks behind it. -/
def MediaQueryList.reader : Reader MediaQueryList := do
  let queries ← .separated Token.comma MediaQuery.reader
  Token.blank
  return ⟨queries⟩

/-- Reads a text that is a list of media queries. -/
def MediaQueryList.parse (text : Text) : Except SyntaxError MediaQueryList :=
  reader.parseAs .mediaQueryList text

end FilterList.Css
