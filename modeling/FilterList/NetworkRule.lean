import FilterList.Modifier
import FilterList.Rule
set_option autoImplicit false

/-!
# Network rules

`@@||example.com^$script,domain=example.org`: a pattern of addresses, with modifiers behind a
dollar sign.  The separator is the last unescaped `$` without a `/` right behind it, so that a `$`
at the end of a regular expression is left alone.
-/

namespace FilterList

/-- A rule that blocks requests, or an exception to such rules. -/
structure NetworkRule where
  dialect : Dialect
  /-- the rule is an exception -/
  exception : Bool
  /-- the pattern is a regular expression -/
  regex : Bool
  pattern : Text
  modifiers : List Modifier
  deriving DecidableEq, Repr, Inhabited

instance : Rule NetworkRule where
  category _ := .network
  dialect r := r.dialect

namespace NetworkRule

/-- The mark of an exception. -/
def exceptionMark : Text := ['@', '@']

/-- The written form of a network rule. -/
def render (r : NetworkRule) : Text :=
  (if r.exception then exceptionMark else []) ++ r.pattern ++
    if r.modifiers.isEmpty then [] else '$' :: Modifier.renderList r.modifiers

/-- A pattern between slashes is a regular expression. -/
def isRegex (pattern : Text) : Bool :=
  1 < pattern.length && Text.beginsWith '/' pattern && Text.endsWith '/' pattern

/-- Cuts a rule at the sign that separates the pattern from the modifiers. -/
def cutSeparator (text : Text) : Option Text.Cut := Text.cutLastUnescaped '$' '/' text

/-- Splits a rule into pattern and modifiers.  A separator without modifiers behind it is dropped,
unless the pattern before it could be split once more. -/
def split (text : Text) : Text × List Modifier :=
  match cutSeparator text with
  | none => (text, [])
  | some cut =>
    let modifiers := Modifier.parseList cut.after
    if modifiers.isEmpty && (cutSeparator cut.before).isSome then (text, modifiers)
    else (cut.before, modifiers)

/-- Reads a network rule from its text without the exception mark. -/
def ofBody (exception : Bool) (body : Text) : NetworkRule :=
  let (pattern, modifiers) := split body
  { dialect := .common, exception, regex := isRegex pattern, pattern, modifiers }

/-- Reads a network rule.  Every text is one. -/
def parse (text : Text) : NetworkRule :=
  let trimmed := Text.trim text
  match Text.after? exceptionMark trimmed with
  | some body => ofBody true body
  | none => ofBody false trimmed

end NetworkRule

end FilterList
