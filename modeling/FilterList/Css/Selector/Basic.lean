import FilterList.Css.Attribute
set_option autoImplicit false

/-!
# Selectors

A selector is a sequence of nodes: simple selectors, with combinators between the compounds they
form.  A pseudo-class may take a list of selectors as its argument, so nodes, arguments and
selectors are defined together.  Nodes hold no positions: two texts that differ only in blanks and
comments have the same selector.
-/

namespace FilterList.Css

/-- How the elements matched by two neighbouring compounds are related. -/
inductive Combinator where
  | descendant
  | child
  | nextSibling
  | subsequentSibling
  deriving DecidableEq, Repr, Inhabited

/-- A pseudo-element such as `::before`; its argument is kept verbatim. -/
structure PseudoElement where
  name : Text
  argument : Option Text
  deriving DecidableEq, Repr, Inhabited

mutual

/-- One node of a selector. -/
inductive Node where
  /-- `div` or `*` -/
  | type (name : Text)
  /-- `#name` -/
  | id (name : Text)
  /-- `.name` -/
  | className (name : Text)
  | attr (a : Attribute)
  /-- `:name` or `:name(argument)` -/
  | pseudoClass (name : Text) (argument : PseudoArgument)
  | pseudoElement (e : PseudoElement)
  | combinator (sign : Combinator)

/-- The argument of a pseudo-class. -/
inductive PseudoArgument where
  /-- no parentheses at all -/
  | absent
  /-- the selectors in `:not(…)` and its like -/
  | selectors (list : List Selector)
  /-- any other argument, verbatim -/
  | verbatim (text : Text)

/-- A selector: compounds with combinators between them.  In the argument of a pseudo-class a
selector may start with a combinator. -/
structure Selector where
  nodes : List Node

end

instance : Inhabited Node := ⟨.type []⟩

instance : Inhabited PseudoArgument := ⟨.absent⟩

instance : Inhabited Selector := ⟨⟨[]⟩⟩

/-- A pseudo-class on its own. -/
structure PseudoClass where
  name : Text
  argument : PseudoArgument
  deriving Inhabited

/-! ## Equality is decidable

The types are nested through lists, so the decision procedures are written out. -/

mutual

/-- Decides equality of nodes. -/
def Node.decEq : (m n : Node) → Decidable (m = n)
  | .type a, .type b => decidable_of_iff (a = b) (by simp)
  | .id a, .id b => decidable_of_iff (a = b) (by simp)
  | .className a, .className b => decidable_of_iff (a = b) (by simp)
  | .attr a, .attr b => decidable_of_iff (a = b) (by simp)
  | .pseudoClass a x, .pseudoClass b y =>
    have := PseudoArgument.decEq x y
    decidable_of_iff (a = b ∧ x = y) (by simp)
  | .pseudoElement a, .pseudoElement b => decidable_of_iff (a = b) (by simp)
  | .combinator a, .combinator b => decidable_of_iff (a = b) (by simp)
  | .type _, .id _ | .type _, .className _ | .type _, .attr _ | .type _, .pseudoClass ..
  | .type _, .pseudoElement _ | .type _, .combinator _
  | .id _, .type _ | .id _, .className _ | .id _, .attr _ | .id _, .pseudoClass ..
  | .id _, .pseudoElement _ | .id _, .combinator _
  | .className _, .type _ | .className _, .id _ | .className _, .attr _
  | .className _, .pseudoClass .. | .className _, .pseudoElement _ | .className _, .combinator _
  | .attr _, .type _ | .attr _, .id _ | .attr _, .className _
  | .attr _, .pseudoClass .. | .attr _, .pseudoElement _ | .attr _, .combinator _
  | .pseudoClass .., .type _ | .pseudoClass .., .id _ | .pseudoClass .., .className _
  | .pseudoClass .., .attr _ | .pseudoClass .., .pseudoElement _
  | .pseudoClass .., .combinator _
  | .pseudoElement _, .type _ | .pseudoElement _, .id _ | .pseudoElement _, .className _
  | .pseudoElement _, .attr _ | .pseudoElement _, .pseudoClass ..
  | .pseudoElement _, .combinator _
  | .combinator _, .type _ | .combinator _, .id _ | .combinator _, .className _
  | .combinator _, .attr _ | .combinator _, .pseudoClass ..
  | .combinator _, .pseudoElement _ => isFalse (by simp)
termination_by structural m => m

/-- Decides equality of arguments. -/
def PseudoArgument.decEq : (m n : PseudoArgument) → Decidable (m = n)
  | .absent, .absent => isTrue rfl
  | .selectors a, .selectors b =>
    have := Selector.decEqList a b
    decidable_of_iff (a = b) (by simp)
  | .verbatim a, .verbatim b => decidable_of_iff (a = b) (by simp)
  | .absent, .selectors _ | .absent, .verbatim _
  | .selectors _, .absent | .selectors _, .verbatim _
  | .verbatim _, .absent | .verbatim _, .selectors _ => isFalse (by simp)
termination_by structural m => m

/-- Decides equality of selectors. -/
def Selector.decEq : (m n : Selector) → Decidable (m = n)
  | ⟨a⟩, ⟨b⟩ =>
    have := Node.decEqList a b
    decidable_of_iff (a = b) (by simp)
termination_by structural m => m

/-- Decides equality of lists of nodes. -/
def Node.decEqList : (m n : List Node) → Decidable (m = n)
  | [], [] => isTrue rfl
  | [], _ :: _ | _ :: _, [] => isFalse (by simp)
  | a :: r, b :: t =>
    have := a.decEq b
    have := Node.decEqList r t
    decidable_of_iff (a = b ∧ r = t) (by simp)
termination_by structural m => m

/-- Decides equality of lists of selectors. -/
def Selector.decEqList : (m n : List Selector) → Decidable (m = n)
  | [], [] => isTrue rfl
  | [], _ :: _ | _ :: _, [] => isFalse (by simp)
  | a :: r, b :: t =>
    have := a.decEq b
    have := Selector.decEqList r t
    decidable_of_iff (a = b ∧ r = t) (by simp)
termination_by structural m => m

end

instance : DecidableEq Node := Node.decEq

instance : DecidableEq PseudoArgument := PseudoArgument.decEq

instance : DecidableEq Selector := Selector.decEq

deriving instance DecidableEq for PseudoClass

end FilterList.Css
