import FilterList.Css.Selector.Walk
set_option autoImplicit false

/-!
# Extended selectors

Ad blockers understand selectors that no style sheet has: pseudo-classes such as `:contains(…)`,
and attributes whose name starts with `-ext-`.  This file says which nodes are extended and finds
them in a selector at any depth.
-/

namespace FilterList.Css

/-- The start of the names of extended attributes. -/
def extendedAttributeStart : Text := "-ext-".toList

/-- The pseudo-classes that ad blockers add, over all dialects. -/
def extendedPseudoClasses : List Text :=
  ["contains".toList, "has".toList, "if-not".toList, "is".toList, "matches-attr".toList,
   "matches-css".toList, "matches-property".toList, "nth-ancestor".toList, "remove".toList,
   "upward".toList, "xpath".toList, "has-text".toList, "if".toList, "matches-css-after".toList,
   "matches-css-before".toList, "matches-path".toList, "min-text-length".toList,
   "watch-attr".toList, "-abp-contains".toList, "-abp-has".toList, "-abp-properties".toList]

/-- The attribute is an extended one. -/
def Attribute.isExtended (a : Attribute) : Bool :=
  (Text.after? extendedAttributeStart a.name).isSome

/-- The pseudo-class is an extended one.  The case of its name does not matter. -/
def PseudoClass.isExtended (p : PseudoClass) : Bool :=
  extendedPseudoClasses.any (Text.eqIgnoreCase · p.name)

/-- Attributes and pseudo-classes found in a selector, each in the order of the text. -/
structure Collected where
  attributes : List Attribute := []
  pseudoClasses : List PseudoClass := []
  deriving DecidableEq, Inhabited

namespace Collected

/-- Nothing was found. -/
def isEmpty (found : Collected) : Bool := found.attributes.isEmpty && found.pseudoClasses.isEmpty

/-- Keeps what is visited if it is an attribute or a pseudo-class that is wanted. -/
def visit (wantAttribute : Attribute → Bool) (wantPseudoClass : PseudoClass → Bool)
    (found : Collected) : Visit → Collected
  | .attr a =>
    if wantAttribute a then { found with attributes := found.attributes ++ [a] } else found
  | .pseudoClass p =>
    if wantPseudoClass p then { found with pseudoClasses := found.pseudoClasses ++ [p] } else found
  | .node _ => found
  | .pseudoElement _ => found

end Collected

/-- The wanted attributes and pseudo-classes of a selector, those nested in arguments included. -/
def Selector.collect (wantAttribute : Attribute → Bool) (wantPseudoClass : PseudoClass → Bool)
    (s : Selector) : Collected :=
  s.walk (Collected.visit wantAttribute wantPseudoClass) {}

/-- The extended attributes and pseudo-classes of a selector. -/
def Selector.extended (s : Selector) : Collected :=
  s.collect Attribute.isExtended PseudoClass.isExtended

end FilterList.Css
