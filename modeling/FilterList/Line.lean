import FilterList.Agent
import FilterList.Injection.Convert
import FilterList.NetworkRule
set_option autoImplicit false

/-!
# Lines of a filter list

A line is an agent comment, a style injection or a network rule, and is tried as such in this
order.  Every line that is nothing else is a network rule.
-/

namespace FilterList

/-- What a line of a filter list holds. -/
inductive Line where
  | agent (a : Agent)
  | injection (i : Injection)
  | network (r : NetworkRule)
  deriving DecidableEq

namespace Line

/-- Reads a line.  It is an error only if the line has the form of an injection and is none. -/
def parse (text : Text) : Except InjectionError Line :=
  match Agent.parse? text with
  | some a => .ok (.agent a)
  | none => do
    match ← Injection.parse text with
    | some i => return .injection i
    | none => return .network (NetworkRule.parse text)

end Line

instance : Rule Line where
  category
    | .agent a => Rule.category a
    | .injection i => Rule.category i
    | .network r => Rule.category r
  dialect
    | .agent a => Rule.dialect a
    | .injection i => Rule.dialect i
    | .network r => Rule.dialect r

end FilterList
