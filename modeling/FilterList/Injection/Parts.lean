import FilterList.Css.Selector.Reader
import FilterList.Injection.Basic
set_option autoImplicit false

/-!
# Parts that both forms of a style injection have

Both forms end up with a text for the selectors and a text for the declarations.  A text that would
read as no declaration at all is blank, and makes no injection.
-/

namespace FilterList.Injection

open Css

/-- The text holds nothing but blanks, closed comments and semicolons. -/
def isBlankContent (content : Text) : Bool := (Token.skipFiller content).isEmpty

/-- Reads the selectors of an injection. -/
def parseSelectors (text : Text) : Except InjectionError (List Selector) :=
  (Selector.parseList text).mapError .invalidSelector

/-- Reads the declarations of an injection from the text between their braces. -/
def parseContent (content : Text) : Except InjectionError Block :=
  (Block.parse ('{' :: content ++ ['}'])).mapError .invalidBlock

end FilterList.Injection
