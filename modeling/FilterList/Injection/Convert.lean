import FilterList.Injection.AdGuard
import FilterList.Injection.UblockOrigin
set_option autoImplicit false

/-!
# Reading, writing and converting style injections

A text is read in whichever form it has, and an injection is written in the form of a dialect.
-/

namespace FilterList.Injection

/-- Reads a text in either form.  A text in neither form gives none. -/
def parse (text : Text) : Except InjectionError (Option Injection) :=
  if AdGuard.recognizes text then (AdGuard.parse text).map some
  else if UblockOrigin.recognizes text then UblockOrigin.parse text
  else .ok none

/-- The written form of an injection in a dialect. -/
def render (dialect : Dialect) (i : Injection) : Except InjectionError Text :=
  match dialect with
  | .adGuard => .ok (AdGuard.render i)
  | .ublockOrigin => UblockOrigin.render i
  | .common => .error (.unsupported .common)
  | .adblockPlus => .error (.unsupported .adblockPlus)

/-- Reads a text in either form and writes it in a dialect. -/
def convert (target : Dialect) (text : Text) : Except InjectionError (Option Text) := do
  match ← parse text with
  | none => return none
  | some i => return some (← render target i)

/-- Converts a text to one dialect after the other, each time from the last text that a conversion
gave. -/
def convertChain : List Dialect → Text → List (Except InjectionError (Option Text))
  | [], _ => []
  | target :: targets, text =>
    let step := convert target text
    let text' :=
      match step with
      | .ok (some converted) => converted
      | _ => text
    step :: convertChain targets text'

end FilterList.Injection
