import FilterList.Css.Selector.Basic
set_option autoImplicit false

/-!
# Writing selectors

A selector has one canonical text: single blanks around combinators, a comma and a blank between
the selectors of a list, and no comments.  Verbatim arguments are written as they were read.
-/

namespace FilterList.Css

/-- The sign of a combinator, without blanks around it. -/
def Combinator.render : Combinator → Text
  | descendant => [' ']
  | child => ['>']
  | nextSibling => ['+']
  | subsequentSibling => ['~']

/-- A combinator as it stands in a selector: with a blank on either side, or only behind it at the
front of the selector. -/
def Combinator.renderWithin (atFront : Bool) : Combinator → Text
  | descendant => [' ']
  | c => if atFront then c.render ++ [' '] else ' ' :: c.render ++ [' ']

/-- The written form of a pseudo-element. -/
def PseudoElement.render (e : PseudoElement) : Text :=
  ':' :: ':' :: e.name ++
    match e.argument with
    | none => []
    | some argument => '(' :: argument ++ [')']

/-- The separator of the selectors in a list. -/
def Selector.separator : Text := [',', ' ']

mutual

/-- The written form of one node on its own. -/
def Node.render : Node → Text
  | .type name => name
  | .id name => '#' :: name
  | .className name => '.' :: name
  | .attr a => a.render
  | .pseudoClass name argument => ':' :: name ++ argument.render
  | .pseudoElement e => e.render
  | .combinator c => c.render
termination_by structural node => node

/-- The written form of an argument with its parentheses. -/
def PseudoArgument.render : PseudoArgument → Text
  | .absent => []
  | .selectors list =>
    '(' :: List.intercalate Selector.separator (Selector.renderEach list) ++ [')']
  | .verbatim text => '(' :: text ++ [')']
termination_by structural argument => argument

/-- The written form of a selector. -/
def Selector.render : Selector → Text
  | ⟨nodes⟩ => Node.renderAll true nodes
termination_by structural selector => selector

/-- The written form of the nodes of a selector, from its front or from further on. -/
def Node.renderAll (atFront : Bool) : List Node → Text
  | [] => []
  | .combinator c :: rest => c.renderWithin atFront ++ Node.renderAll false rest
  | node :: rest => node.render ++ Node.renderAll false rest
termination_by structural nodes => nodes

/-- The written forms of some selectors. -/
def Selector.renderEach : List Selector → List Text
  | [] => []
  | selector :: rest => selector.render :: Selector.renderEach rest
termination_by structural selectors => selectors

end

/-- The written form of a list of selectors. -/
def Selector.renderList (list : List Selector) : Text :=
  List.intercalate Selector.separator (list.map Selector.render)

@[simp] theorem Selector.renderEach_eq_map (list : List Selector) :
    Selector.renderEach list = list.map Selector.render := by
  induction list with
  | nil => rfl
  | cons selector rest ih => simp [Selector.renderEach, ih]

/-- The written form of a pseudo-class. -/
def PseudoClass.render (p : PseudoClass) : Text := (Node.pseudoClass p.name p.argument).render

end FilterList.Css
