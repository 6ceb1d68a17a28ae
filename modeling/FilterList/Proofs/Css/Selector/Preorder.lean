import FilterList.Css.Selector.Extended
set_option autoImplicit false

/-!
# The nodes of a selector in pre-order

A walk carries a state through a recursion over nodes, arguments and selectors.  Here the nodes of a
selector are first listed without any state: each node, then the nodes nested in its argument, then
the nodes behind it.  Every walk is a fold over that list, whatever the visitor does, and so what is
collected from a selector is what a filter leaves of the list.
-/

namespace FilterList.Css

/-! ## Listing the nodes -/

mutual

/-- The nodes nested in a node, at any depth. -/
def Node.nested : Node → List Node
  | .type _ | .id _ | .className _ | .attr _ | .pseudoElement _ | .combinator _ => []
  | .pseudoClass _ argument => argument.nested
termination_by structural node => node

/-- The nodes of the selectors in an argument; a verbatim argument holds none. -/
def PseudoArgument.nested : PseudoArgument → List Node
  | .absent => []
  | .selectors list => Selector.preorderList list
  | .verbatim _ => []
termination_by structural argument => argument

/-- All nodes of a selector, from left to right, each before the nodes nested in it. -/
def Selector.preorder : Selector → List Node
  | ⟨nodes⟩ => Node.preorderList nodes
termination_by structural selector => selector

/-- Some nodes, each with the nodes nested in it behind it. -/
def Node.preorderList : List Node → List Node
  | [] => []
  | node :: rest => node :: (node.nested ++ Node.preorderList rest)
termination_by structural nodes => nodes

/-- The nodes of some selectors, one selector after the other. -/
def Selector.preorderList : List Selector → List Node
  | [] => []
  | selector :: rest => selector.preorder ++ Selector.preorderList rest
termination_by structural selectors => selectors

end

theorem Node.preorderList_eq_flatMap (nodes : List Node) :
    Node.preorderList nodes = nodes.flatMap fun node => node :: node.nested := by
  induction nodes with
  | nil => rfl
  | cons node rest ih => rw [Node.preorderList, ih]; rfl

theorem Selector.preorderList_eq_flatMap (list : List Selector) :
    Selector.preorderList list = list.flatMap Selector.preorder := by
  induction list with
  | nil => rfl
  | cons selector rest ih => rw [Selector.preorderList, ih]; rfl

/-! ## Nodes at any depth -/

/-- The selector holds the node, on its own level or nested in an argument. -/
inductive Selector.Holds : Selector → Node → Prop
  | here {s : Selector} {node : Node} : node ∈ s.nodes → Holds s node
  | nested {s t : Selector} {node : Node} {name : Text} {list : List Selector} :
      .pseudoClass name (.selectors list) ∈ s.nodes → t ∈ list → Holds t node → Holds s node

theorem Node.mem_nested_iff {m node : Node} :
    node ∈ m.nested ↔
      ∃ name list t, m = .pseudoClass name (.selectors list) ∧ t ∈ list ∧ node ∈ t.preorder := by
  cases m with
  | pseudoClass name argument =>
    cases argument with
    | selectors list =>
      simp only [Node.nested, PseudoArgument.nested, Selector.preorderList_eq_flatMap,
        List.mem_flatMap]
      constructor
      · intro h
        obtain ⟨t, ht, hnode⟩ := h
        exact ⟨name, list, t, rfl, ht, hnode⟩
      · intro h
        obtain ⟨_, _, t, heq, ht, hnode⟩ := h
        cases heq
        exact ⟨t, ht, hnode⟩
    | absent => simp [Node.nested, PseudoArgument.nested]
    | verbatim _ => simp [Node.nested, PseudoArgument.nested]
  | _ => simp [Node.nested]

theorem Selector.mem_preorder_iff {s : Selector} {node : Node} :
    node ∈ s.preorder ↔ node ∈ s.nodes ∨
      ∃ name list t, .pseudoClass name (.selectors list) ∈ s.nodes ∧ t ∈ list ∧
        node ∈ t.preorder := by
  obtain ⟨nodes⟩ := s
  rw [Selector.preorder, Node.preorderList_eq_flatMap, List.mem_flatMap]
  simp only [List.mem_cons, Node.mem_nested_iff]
  constructor
  · intro h
    obtain ⟨m, hm, rfl | ⟨name, list, t, rfl, ht, hnode⟩⟩ := h
    · exact .inl hm
    · exact .inr ⟨name, list, t, hm, ht, hnode⟩
  · intro h
    obtain hm | ⟨name, list, t, hm, ht, hnode⟩ := h
    · exact ⟨node, hm, .inl rfl⟩
    · exact ⟨_, hm, .inr ⟨name, list, t, rfl, ht, hnode⟩⟩

/-- The list misses no node, at whatever depth it stands, and has no other. -/
theorem Selector.mem_preorder_iff_holds {s : Selector} {node : Node} :
    node ∈ s.preorder ↔ s.Holds node := by
  constructor
  · intro h
    induction hsize : sizeOf s using Nat.strongRecOn generalizing s with
    | ind size ih =>
      obtain hm | ⟨name, list, t, hm, ht, hnode⟩ := Selector.mem_preorder_iff.mp h
      · exact .here hm
      · refine .nested hm ht (ih (sizeOf t) ?_ hnode rfl)
        have hlist := List.sizeOf_lt_of_mem ht
        have hnodes := List.sizeOf_lt_of_mem hm
        obtain ⟨nodes⟩ := s
        simp only [Node.pseudoClass.sizeOf_spec, PseudoArgument.selectors.sizeOf_spec,
          Selector.mk.sizeOf_spec] at hnodes hsize
        omega
  · intro h
    induction h with
    | here hm => exact Selector.mem_preorder_iff.mpr (.inl hm)
    | nested hm ht _ ih => exact Selector.mem_preorder_iff.mpr (.inr ⟨_, _, _, hm, ht, ih⟩)

/-! ## A walk is a fold over the list -/

/-- What a visitor is shown of one node. -/
def Node.visits : Node → List Visit
  | .attr a => [.node (.attr a), .attr a]
  | .pseudoClass name argument =>
    [.node (.pseudoClass name argument), .pseudoClass ⟨name, argument⟩]
  | .pseudoElement e => [.node (.pseudoElement e), .pseudoElement e]
  | .type name => [.node (.type name)]
  | .id name => [.node (.id name)]
  | .className name => [.node (.className name)]
  | .combinator sign => [.node (.combinator sign)]

section

variable {σ : Type} (visit : σ → Visit → σ)

mutual

theorem Node.walk_eq_foldl : (node : Node) → (st : σ) →
    node.walk visit st = ((node :: node.nested).flatMap Node.visits).foldl visit st
  | .pseudoClass name argument, st => by
    rw [Node.walk, argument.walk_eq_foldl, List.flatMap_cons, List.foldl_append]
    rfl
  | .type _, _ | .id _, _ | .className _, _ | .attr _, _ | .pseudoElement _, _
  | .combinator _, _ => rfl
termination_by structural node => node

theorem PseudoArgument.walk_eq_foldl : (argument : PseudoArgument) → (st : σ) →
    argument.walk visit st = (argument.nested.flatMap Node.visits).foldl visit st
  | .selectors list, st => by
    rw [PseudoArgument.walk, Selector.walkList_eq_foldl list, PseudoArgument.nested]
  | .absent, _ | .verbatim _, _ => rfl
termination_by structural argument => argument

theorem Selector.walk_eq_foldl : (selector : Selector) → (st : σ) →
    selector.walk visit st = (selector.preorder.flatMap Node.visits).foldl visit st
  | ⟨nodes⟩, st => by rw [Selector.walk, Node.walkList_eq_foldl nodes, Selector.preorder]
termination_by structural selector => selector

theorem Node.walkList_eq_foldl : (nodes : List Node) → (st : σ) →
    Node.walkList visit nodes st =
      ((Node.preorderList nodes).flatMap Node.visits).foldl visit st
  | [], _ => rfl
  | node :: rest, st => by
    rw [Node.walkList, Node.walkList_eq_foldl rest, node.walk_eq_foldl, ← List.foldl_append,
      ← List.flatMap_append, List.cons_append, Node.preorderList]
termination_by structural nodes => nodes

theorem Selector.walkList_eq_foldl : (list : List Selector) → (st : σ) →
    Selector.walkList visit list st =
      ((Selector.preorderList list).flatMap Node.visits).foldl visit st
  | [], _ => rfl
  | selector :: rest, st => by
    rw [Selector.walkList, Selector.walkList_eq_foldl rest, selector.walk_eq_foldl,
      ← List.foldl_append, ← List.flatMap_append, Selector.preorderList]
termination_by structural list => list

end

end

/-- A walk makes the visits of every node in pre-order, and no others. -/
theorem Selector.visits_eq_flatMap (s : Selector) : s.visits = s.preorder.flatMap Node.visits := by
  rw [Selector.visits, Selector.walk_eq_foldl, List.foldl_flip_cons_eq_append']
  simp

/-! ## Collecting -/

/-- The attribute selector that a node is. -/
def Node.attribute? : Node → Option Attribute
  | .attr a => some a
  | _ => none

/-- The pseudo-class that a node is. -/
def Node.pseudoClass? : Node → Option PseudoClass
  | .pseudoClass name argument => some ⟨name, argument⟩
  | _ => none

/-- The node is an extended attribute or an extended pseudo-class. -/
def Node.isExtended (node : Node) : Bool :=
  node.attribute?.any Attribute.isExtended || node.pseudoClass?.any PseudoClass.isExtended

namespace Collected

/-- Both lists with more behind them. -/
def append (found more : Collected) : Collected where
  attributes := found.attributes ++ more.attributes
  pseudoClasses := found.pseudoClasses ++ more.pseudoClasses

/-- The wanted attributes and pseudo-classes among some nodes, in the order of the nodes. -/
def among (wantAttribute : Attribute → Bool) (wantPseudoClass : PseudoClass → Bool)
    (nodes : List Node) : Collected where
  attributes := (nodes.filterMap Node.attribute?).filter wantAttribute
  pseudoClasses := (nodes.filterMap Node.pseudoClass?).filter wantPseudoClass

variable (wantAttribute : Attribute → Bool) (wantPseudoClass : PseudoClass → Bool)

/-- The visits of one node add the node itself, if it is wanted. -/
theorem foldl_visits (node : Node) (found : Collected) :
    node.visits.foldl (visit wantAttribute wantPseudoClass) found =
      found.append (among wantAttribute wantPseudoClass [node]) := by
  cases node with
  | attr a =>
    by_cases h : wantAttribute a = true
    all_goals
      simp [Node.visits, visit, append, among, List.filterMap_cons, Node.attribute?,
        Node.pseudoClass?, h]
  | pseudoClass name argument =>
    by_cases h : wantPseudoClass ⟨name, argument⟩ = true
    all_goals
      simp [Node.visits, visit, append, among, List.filterMap_cons, Node.attribute?,
        Node.pseudoClass?, h]
  | _ =>
    simp [Node.visits, visit, append, among, List.filterMap_cons, Node.attribute?,
      Node.pseudoClass?]

theorem append_among_cons (found : Collected) (node : Node) (rest : List Node) :
    (found.append (among wantAttribute wantPseudoClass [node])).append
        (among wantAttribute wantPseudoClass rest) =
      found.append (among wantAttribute wantPseudoClass (node :: rest)) := by
  have hsplit : node :: rest = [node] ++ rest := rfl
  rw [hsplit]
  simp only [append, among, List.filterMap_append, List.filter_append, List.append_assoc]

/-- The visits of some nodes add those of them that are wanted. -/
theorem foldl_flatMap_visits (nodes : List Node) (found : Collected) :
    (nodes.flatMap Node.visits).foldl (visit wantAttribute wantPseudoClass) found =
      found.append (among wantAttribute wantPseudoClass nodes) := by
  induction nodes generalizing found with
  | nil => simp [append, among]
  | cons node rest ih =>
    rw [List.flatMap_cons, List.foldl_append, foldl_visits, ih, append_among_cons]

end Collected

/-- What is collected does not depend on how a selector is walked through. -/
theorem Selector.collect_eq_among (s : Selector) (wantAttribute : Attribute → Bool)
    (wantPseudoClass : PseudoClass → Bool) :
    s.collect wantAttribute wantPseudoClass =
      Collected.among wantAttribute wantPseudoClass s.preorder := by
  rw [Selector.collect, Selector.walk_eq_foldl, Collected.foldl_flatMap_visits]
  rfl

/-- Nothing extended is found exactly if no node at any depth is extended. -/
theorem Selector.isEmpty_extended_iff (s : Selector) :
    s.extended.isEmpty = true ↔ ¬ ∃ node, s.Holds node ∧ node.isExtended = true := by
  simp only [Selector.extended, Selector.collect_eq_among, Collected.isEmpty, Collected.among,
    Bool.and_eq_true, List.isEmpty_iff, List.filter_eq_nil_iff, List.mem_filterMap,
    Selector.mem_preorder_iff_holds, Node.isExtended, Bool.or_eq_true, Option.any_eq_true]
  constructor
  · intro h hex
    obtain ⟨hattributes, hpseudos⟩ := h
    obtain ⟨node, hnode, ⟨a, ha, hext⟩ | ⟨p, hp, hext⟩⟩ := hex
    · exact hattributes a ⟨node, hnode, ha⟩ hext
    · exact hpseudos p ⟨node, hnode, hp⟩ hext
  · intro h
    constructor
    · intro a hmem hext
      obtain ⟨node, hnode, ha⟩ := hmem
      exact h ⟨node, hnode, .inl ⟨a, ha, hext⟩⟩
    · intro p hmem hext
      obtain ⟨node, hnode, hp⟩ := hmem
      exact h ⟨node, hnode, .inr ⟨p, hp, hext⟩⟩

/-- Collecting gives the wanted attributes and the wanted pseudo-classes of a selector in pre-order,
each as often as it stands there, and the one kind is collected without regard to the other.  So
there is nothing extended to be found exactly if no node at any depth is extended. -/
theorem Selector.collect_eq_filter_preorder (s : Selector) (wantAttribute : Attribute → Bool)
    (wantPseudoClass : PseudoClass → Bool) :
    (s.collect wantAttribute wantPseudoClass).attributes =
        (s.preorder.filterMap Node.attribute?).filter wantAttribute ∧
      (s.collect wantAttribute wantPseudoClass).pseudoClasses =
        (s.preorder.filterMap Node.pseudoClass?).filter wantPseudoClass ∧
      (∀ want, (s.collect wantAttribute want).attributes =
        (s.collect wantAttribute wantPseudoClass).attributes) ∧
      (∀ want, (s.collect want wantPseudoClass).pseudoClasses =
        (s.collect wantAttribute wantPseudoClass).pseudoClasses) ∧
      (∀ node, node ∈ s.preorder ↔ s.Holds node) ∧
      (s.extended.isEmpty = true ↔ ¬ ∃ node, s.Holds node ∧ node.isExtended = true) := by
  have hcollect := s.collect_eq_among
  refine ⟨?attributes, ?pseudoClasses, ?attributesAlone, ?pseudoClassesAlone,
    fun _ => Selector.mem_preorder_iff_holds, s.isEmpty_extended_iff⟩
  case attributes => rw [hcollect, Collected.among]
  case pseudoClasses => rw [hcollect, Collected.among]
  case attributesAlone =>
    intro want
    rw [hcollect, hcollect, Collected.among, Collected.among]
  case pseudoClassesAlone =>
    intro want
    rw [hcollect, hcollect, Collected.among, Collected.among]

-- `[a]:not(:has([b]), .c)`: of what is nested, only `:has` and `[b]` are found besides
example :
    let nested : List Selector :=
      [⟨[.pseudoClass "has".toList (.selectors [⟨[.attr ⟨['b'], none, none⟩]⟩])]⟩,
        ⟨[.className ['c']]⟩]
    let s : Selector :=
      ⟨[.attr ⟨['a'], none, none⟩, .pseudoClass "not".toList (.selectors nested)]⟩
    let found := s.collect (fun _ => true) fun _ => true
    found.attributes.map Attribute.name = [['a'], ['b']] ∧
      found.pseudoClasses.map PseudoClass.name = ["not".toList, "has".toList] := by
  decide

end FilterList.Css
