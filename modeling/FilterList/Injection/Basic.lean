import FilterList.Css.Block
import FilterList.Css.MediaQuery
import FilterList.Css.Selector.Writer
import FilterList.Rule
set_option autoImplicit false

/-!
# Style injections

A style injection applies declarations to the elements that some selectors match, or removes those
elements.  Two dialects write it in forms of their own; this file holds what both forms say, and
the errors of reading and writing them.
-/

namespace FilterList

open Css

/-- What an injection does to the elements it matches. -/
inductive Effect where
  /-- apply the declarations of a block -/
  | style (block : Block)
  /-- remove the elements -/
  | remove
  deriving DecidableEq, Repr, Inhabited

/-- A style injection, whatever dialect it is written in. -/
structure Injection where
  mediaQueries : Option MediaQueryList
  selectors : List Selector
  effect : Effect
  deriving DecidableEq, Inhabited

namespace Injection

/-- The injection removes elements. -/
def isRemoval (i : Injection) : Bool :=
  match i.effect with
  | .remove => true
  | .style _ => false

end Injection

/-- Only one dialect can write media queries; any other injection is common to both. -/
instance : Rule Injection where
  category _ := .cosmetic
  dialect i := if i.mediaQueries.isSome then .adGuard else .common

/-- Why a style injection cannot be read or written. -/
inductive InjectionError where
  | invalidSelector (cause : SyntaxError)
  | invalidBlock (cause : SyntaxError)
  | invalidMediaQuery (cause : SyntaxError)
  /-- the removal of the elements is asked for more than once -/
  | repeatedRemoval (text : Text)
  /-- the removal of the elements is asked for among other declarations -/
  | mixedRemoval (text : Text)
  /-- the text has not the form of an injection -/
  | unrecognized (text : Text)
  /-- the dialect has no form for injections -/
  | unsupported (dialect : Dialect)
  /-- the dialect has no form for media queries -/
  | mediaQueryUnsupported (dialect : Dialect)
  deriving DecidableEq, Repr, Inhabited

namespace InjectionError

/-- The error of the style sheet fragment behind an error. -/
def cause? : InjectionError → Option SyntaxError
  | invalidSelector cause | invalidBlock cause | invalidMediaQuery cause => some cause
  | _ => none

/-- The error in one sentence. -/
def message : InjectionError → String
  | invalidSelector cause =>
    "invalid selector '" ++ String.ofList cause.fragment ++ "' in CSS injection body"
  | invalidBlock cause =>
    "invalid declaration block '" ++ String.ofList cause.fragment ++ "' in CSS injection body"
  | invalidMediaQuery cause =>
    "invalid media query '" ++ String.ofList cause.fragment ++ "' in CSS injection body"
  | repeatedRemoval text =>
    "multiple remove property found in the following CSS injection body: " ++ String.ofList text
  | mixedRemoval text =>
    "in addition to the remove property, the following CSS injection body also uses other " ++
      "properties: " ++ String.ofList text
  | unrecognized text => "not a CSS injection body: " ++ String.ofList text
  | unsupported dialect => "CSS injection is not supported by " ++ dialect.wording ++ " syntax"
  | mediaQueryUnsupported dialect =>
    dialect.wording ++ " syntax does not support media queries in CSS injection"

end InjectionError

end FilterList
