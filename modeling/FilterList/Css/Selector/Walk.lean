import FilterList.Css.Selector.Basic
set_option autoImplicit false

/-!
# Walking through a selector

A walk shows a visitor every node of a selector in the order of the text, and every pseudo-class
before the selectors in its argument.  The visitor carries a state of its own.
-/

namespace FilterList.Css

/-- What a visitor is shown.  Every node is shown as a node first; attributes, pseudo-classes and
pseudo-elements are then shown once more for what they are. -/
inductive Visit where
  | node (n : Node)
  | attr (a : Attribute)
  | pseudoClass (p : PseudoClass)
  | pseudoElement (e : PseudoElement)
  deriving DecidableEq

mutual

/-- Walks through a node and the selectors in its argument. -/
def Node.walk {σ : Type} (visit : σ → Visit → σ) : Node → σ → σ
  | .type name, st => visit st (.node (.type name))
  | .id name, st => visit st (.node (.id name))
  | .className name, st => visit st (.node (.className name))
  | .attr a, st => visit (visit st (.node (.attr a))) (.attr a)
  | .pseudoClass name argument, st =>
    argument.walk visit
      (visit (visit st (.node (.pseudoClass name argument))) (.pseudoClass ⟨name, argument⟩))
  | .pseudoElement e, st => visit (visit st (.node (.pseudoElement e))) (.pseudoElement e)
  | .combinator sign, st => visit st (.node (.combinator sign))
termination_by structural node => node

/-- Walks through the selectors of an argument; a verbatim argument holds none. -/
def PseudoArgument.walk {σ : Type} (visit : σ → Visit → σ) : PseudoArgument → σ → σ
  | .absent, st => st
  | .selectors list, st => Selector.walkList visit list st
  | .verbatim _, st => st
termination_by structural argument => argument

/-- Walks through a selector. -/
def Selector.walk {σ : Type} (visit : σ → Visit → σ) : Selector → σ → σ
  | ⟨nodes⟩, st => Node.walkList visit nodes st
termination_by structural selector => selector

/-- Walks through some nodes, one after the other. -/
def Node.walkList {σ : Type} (visit : σ → Visit → σ) : List Node → σ → σ
  | [], st => st
  | node :: rest, st => Node.walkList visit rest (node.walk visit st)
termination_by structural nodes => nodes

/-- Walks through some selectors, one after the other. -/
def Selector.walkList {σ : Type} (visit : σ → Visit → σ) : List Selector → σ → σ
  | [], st => st
  | selector :: rest, st => Selector.walkList visit rest (selector.walk visit st)
termination_by structural selectors => selectors

end

/-- All visits of a walk, in order. -/
def Selector.visits (s : Selector) : List Visit := (s.walk (fun seen v => v :: seen) []).reverse

end FilterList.Css
