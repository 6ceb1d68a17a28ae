import FilterList.Injection.Convert
set_option autoImplicit false

/-!
# Errors of both layers

Whoever reads style sheet fragments and rules side by side needs one type for the errors of both.
-/

namespace FilterList

open Css

/-- An error of a style sheet fragment or of a style injection. -/
inductive Error where
  | css (e : SyntaxError)
  | injection (e : InjectionError)
  deriving DecidableEq, Repr, Inhabited

/-- The error in one sentence: that of the layer it comes from. -/
def Error.message : Error → String
  | css e => e.message
  | injection e => e.message

/-- Reads a selector and an AdGuard injection, and writes the selector and, behind it, the injection
in a dialect.  The first error stops. -/
def renderBeside (dialect : Dialect) (selector injection : Text) : Except Error Text := do
  let s ← (Selector.parse selector).mapError .css
  let i ← (Injection.AdGuard.parse injection).mapError .injection
  let written ← (i.render dialect).mapError .injection
  return s.render ++ ' ' :: written

end FilterList
