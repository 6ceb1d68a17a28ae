import FilterList.Css.Reader
import FilterList.Text.Group
set_option autoImplicit false

/-!
# Tokens of style sheets

Blanks and comments, names, quoted strings and verbatim groups: the pieces of which selectors,
declaration blocks and media queries are made.
-/

namespace FilterList.Css.Token

/-! ## Blanks and comments -/

/-- The blanks of a style sheet.  They are fewer than the white space of Unicode. -/
def isBlank (c : Char) : Bool :=
  c == ' ' || c == '\t' || c == '\n' || c == '\r' || c == '\x0c'

/-- The characters that may stand between two declarations. -/
def isFiller (c : Char) : Bool := isBlank c || c == ';'

mutual

/-- What is left of a text after the gap characters and closed comments at its front.  A comment
that is not closed is no gap. -/
def skipGaps (gap : Char → Bool) : Text → Text
  | [] => []
  | '/' :: '*' :: rest => (skipComment gap rest).getD ('/' :: '*' :: rest)
  | c :: rest => if gap c then skipGaps gap rest else c :: rest

/-- The same inside a comment, which ends at the first `*/`; nothing if it does not end. -/
def skipComment (gap : Char → Bool) : Text → Option Text
  | [] => none
  | '*' :: '/' :: rest => some (skipGaps gap rest)
  | _ :: rest => skipComment gap rest

end

/-- What is left of a text after the blanks and comments at its front. -/
def skipBlank (s : Text) : Text := skipGaps isBlank s

/-- What is left of a text after the blanks, comments and semicolons at its front. -/
def skipFiller (s : Text) : Text := skipGaps isFiller s

/-- Takes blanks and comments, if there are any. -/
def blank : Reader Unit := .skip skipBlank

/-- Takes blanks, comments and semicolons, if there are any. -/
def filler : Reader Unit := .skip skipFiller

/-- Takes a comma with the blanks before it. -/
def comma : Reader Unit := do
  blank
  .char ','

/-! ## Names -/

/-- The characters that need no escape in a name: letters, digits, `-`, `_` and all that is not
ASCII. -/
def isNameChar (c : Char) : Bool := c.isAlphanum || c == '-' || c == '_' || 0x80 ≤ c.toNat

/-- A name that needs no escape. -/
def isPlainName (s : Text) : Bool := !s.isEmpty && s.all isNameChar

/-- The name characters and escaped characters at the front of a text, and what is left. -/
def spanName : Text → Text × Text
  | '\\' :: c :: rest =>
    let (name, rest') := spanName rest
    ('\\' :: c :: name, rest')
  | c :: rest =>
    if isNameChar c then
      let (name, rest') := spanName rest
      (c :: name, rest')
    else ([], c :: rest)
  | [] => ([], [])

/-- Takes a name as it is written, escapes included.  On a backslash with nothing behind it the
reader stops after the backslash. -/
def name : Reader Text := fun s =>
  match spanName s with
  | ([], ['\\']) => .failed .soft []
  | ([], rest) => .failed .soft rest
  | (n, rest) => .done n rest

/-! ## Quoted strings -/

/-- The content of a quoted string whose opening quote has been taken.  The content is given as
it is written between double quotes: a double quote gets a backslash, a single quote loses its
own, and any other escape stays. -/
def quotedContent (quote : Char) : Reader Text
  | [] => .failed ⟨true, [.expected (.char quote)]⟩ []
  | ['\\'] => .failed ⟨true, []⟩ []
  | '\\' :: c :: rest =>
    (quotedContent quote rest).map fun content =>
      if c = '\'' then c :: content else '\\' :: c :: content
  | c :: rest =>
    if c = quote then .done [] rest
    else
      (quotedContent quote rest).map fun content =>
        if c = '"' then '\\' :: c :: content else c :: content

/-- Takes a string in double or single quotes and gives its content as it is written between
double quotes. -/
def quoted : Reader Text
  | c :: rest => if Text.isQuote c then quotedContent c rest else .failed .soft (c :: rest)
  | [] => .failed .soft []

/-! ## Groups -/

/-- Takes a parenthesised group and gives its content untouched. -/
def group : Reader Text := fun s =>
  match Text.group? s with
  | some (content, rest) => .done content rest
  | none => .failed .soft s

end FilterList.Css.Token
