import FilterList.Proofs.Css.Selector.Shape
set_option autoImplicit false

/-!
# How deep lists of selectors may be nested

A selector of the shape that reading gives, but nested as deep as one likes, always has a written
form.  That form is read back if lists are nested as deep as is allowed at most, and is refused if
they are nested any deeper.  It cannot be taken for another selector in that case: with a larger
allowance the grammar has the same words and more, and each of them still stands for one selector
only.
-/

namespace FilterList.Css

open Token Reader Text

/-! ## Nesting -/

mutual

/-- How deep lists of selectors are nested in a node: its own list is one, and the lists in that
list come on top of it. -/
def Node.nesting : Node → Nat
  | .type _ | .id _ | .className _ | .attr _ | .pseudoElement _ | .combinator _ => 0
  | .pseudoClass _ argument => argument.nesting
termination_by structural node => node

/-- How deep lists of selectors are nested in an argument, the argument itself included. -/
def PseudoArgument.nesting : PseudoArgument → Nat
  | .absent => 0
  | .selectors list => Selector.nestingList list + 1
  | .verbatim _ => 0
termination_by structural argument => argument

/-- How deep lists of selectors are nested in a selector. -/
def Selector.nesting : Selector → Nat
  | ⟨nodes⟩ => Node.nestingList nodes
termination_by structural selector => selector

/-- The deepest nesting among some nodes. -/
def Node.nestingList : List Node → Nat
  | [] => 0
  | node :: rest => max node.nesting (Node.nestingList rest)
termination_by structural nodes => nodes

/-- The deepest nesting among some selectors. -/
def Selector.nestingList : List Selector → Nat
  | [] => 0
  | selector :: rest => max selector.nesting (Selector.nestingList rest)
termination_by structural list => list

end

theorem Selector.nestingList_le_iff {list : List Selector} {k : Nat} :
    Selector.nestingList list ≤ k ↔ ∀ s ∈ list, s.nesting ≤ k := by
  induction list with
  | nil => simp [Selector.nestingList]
  | cons s rest ih => rw [Selector.nestingList, Nat.max_le, ih, List.forall_mem_cons]

/-! ## Shapes at any depth -/

namespace Lexicon

section

variable {lexicon : Lexicon} {lists lists' : List Selector → Bool} {k : Nat}
  (hlists : ∀ list, lists list = true → (lists' list = true ↔ Selector.nestingList list < k))

include hlists

theorem shapesSubclass_iff_nesting {node : Node} (h : lexicon.shapesSubclass lists node = true) :
    lexicon.shapesSubclass lists' node = true ↔ node.nesting ≤ k := by
  cases node with
  | type name => cases h
  | combinator sign => cases h
  | pseudoClass name argument =>
    simp only [shapesSubclass, Bool.and_eq_true] at h ⊢
    obtain ⟨hname, hargument⟩ := h
    cases argument with
    | absent => simp [shapesArgument, hname, Node.nesting, PseudoArgument.nesting]
    | verbatim text =>
      simp only [shapesArgument] at hargument ⊢
      simp [hname, hargument, Node.nesting, PseudoArgument.nesting]
    | selectors list =>
      simp only [shapesArgument, Bool.and_eq_true] at hargument ⊢
      rw [hlists list hargument.2, Node.nesting, PseudoArgument.nesting, Nat.succ_le_iff]
      simp [hname, hargument.1]
  | _ => exact ⟨fun _ => Nat.zero_le k, fun _ => h⟩

theorem shapesNodes_iff_nesting {begins : Bool} {nodes : List Node}
    (h : lexicon.shapesNodes lists begins nodes = true) :
    lexicon.shapesNodes lists' begins nodes = true ↔ Node.nestingList nodes ≤ k := by
  induction nodes generalizing begins with
  | nil => exact ⟨fun _ => Nat.zero_le k, fun _ => h⟩
  | cons node rest ih =>
    rw [Node.nestingList, Nat.max_le]
    cases node with
    | type name =>
      simp only [shapesNodes, Bool.and_eq_true] at h ⊢
      rw [ih h.2]
      simp [h.1, Node.nesting]
    | combinator sign =>
      simp only [shapesNodes, Bool.and_eq_true] at h ⊢
      rw [ih h.2]
      simp [h.1, Node.nesting]
    | _ =>
      simp only [shapesNodes, Bool.and_eq_true] at h ⊢
      rw [shapesSubclass_iff_nesting hlists h.1, ih h.2]

theorem shapesSelector_iff_nesting {relative : Bool} {selector : Selector}
    (h : lexicon.shapesSelector lists relative selector = true) :
    lexicon.shapesSelector lists' relative selector = true ↔ selector.nesting ≤ k := by
  obtain ⟨nodes⟩ := selector
  rw [Selector.nesting]
  unfold shapesSelector at h ⊢
  split at h
  · next sign rest hnodes =>
    rw [show nodes = .combinator sign :: rest from hnodes]
    simp only [Bool.and_eq_true] at h ⊢
    rw [shapesNodes_iff_nesting hlists h.2]
    simp [h.1, Node.nestingList, Node.nesting]
  · rw [← shapesNodes_iff_nesting hlists h]

theorem shapesSelectors_iff_nesting {relative : Bool} {list : List Selector}
    (h : lexicon.shapesSelectors lists relative list = true) :
    lexicon.shapesSelectors lists' relative list = true ↔ Selector.nestingList list ≤ k := by
  simp only [shapesSelectors, Bool.and_eq_true, List.all_eq_true] at h ⊢
  rw [Selector.nestingList_le_iff]
  constructor
  · intro h' s hs
    exact (shapesSelector_iff_nesting hlists (h.2 s hs)).mp (h'.2 s hs)
  · intro h'
    exact ⟨h.1, fun s hs => (shapesSelector_iff_nesting hlists (h.2 s hs)).mpr (h' s hs)⟩

end

/-- A list that has the shape for some depth has it for every depth above its nesting. -/
theorem shapesArguments_iff_nesting {lexicon : Lexicon} {depth : Nat} {list : List Selector}
    (h : lexicon.shapesArguments depth list = true) (k : Nat) :
    lexicon.shapesArguments k list = true ↔ Selector.nestingList list < k := by
  induction depth generalizing list k with
  | zero => cases h
  | succ depth ih =>
    cases k with
    | zero => simp [shapesArguments]
    | succ k =>
      rw [Nat.lt_succ_iff]
      exact shapesSelectors_iff_nesting (fun list hlist => ih hlist k) h

/-- The selector has the shape that reading gives, however deep lists are nested in it. -/
def Shapes (lexicon : Lexicon) (selector : Selector) : Prop :=
  ∃ depth, lexicon.shapesSelector (lexicon.shapesArguments depth) false selector = true

theorem Shapes.iff_nesting {lexicon : Lexicon} {selector : Selector} (h : lexicon.Shapes selector)
    (k : Nat) :
    lexicon.shapesSelector (lexicon.shapesArguments k) false selector = true ↔
      selector.nesting ≤ k := by
  obtain ⟨depth, h⟩ := h
  exact shapesSelector_iff_nesting (fun _ hlist => shapesArguments_iff_nesting hlist k) h

/-- To have the shape is to have it for the depth of the selector itself. -/
theorem shapes_iff {lexicon : Lexicon} {selector : Selector} :
    lexicon.Shapes selector ↔
      lexicon.shapesSelector (lexicon.shapesArguments selector.nesting) false selector = true := by
  constructor
  · intro h
    exact (h.iff_nesting _).mpr (Nat.le_refl _)
  · intro h
    exact ⟨_, h⟩

instance (lexicon : Lexicon) (selector : Selector) : Decidable (lexicon.Shapes selector) :=
  decidable_of_iff _ shapes_iff.symm

end Lexicon

/-! ## Reading what was written -/

/-- A selector of the shape is written as a word, if lists may be nested as deep as in it. -/
theorem Lexicon.Shapes.isSelector_render {s : Selector} (h : Lexicon.grammar.Shapes s) :
    Spaced (IsSelector (IsArgumentList s.nesting) false) s.render s := by
  obtain ⟨u, hu⟩ := Lexicon.within_grammar.exists_selector
    (fun list hlist => Lexicon.within_grammar.exists_arguments s.nesting hlist)
    (Lexicon.shapes_iff.mp h)
  have hcanonical := IsSelector.canonical (IsArgumentList.canonical s.nesting) false _ _ hu
  exact ⟨s.render, [], by simp, hcanonical.1, .nil⟩

/-- What was read is nested as deep as is allowed at most. -/
theorem Selector.nesting_le_of_parse {t : Text} {s : Selector} (h : Selector.parse t = .ok s) :
    s.nesting ≤ maxNesting := by
  obtain ⟨u, w, -, hu, -⟩ := Selector.isSelectorText_of_parse h
  have hshape : Lexicon.grammar.shapesSelector
      (Lexicon.grammar.shapesArguments maxNesting) false s = true :=
    Lexicon.covers_grammar.shapesSelector
      (fun _ _ hu => Lexicon.covers_grammar.shapesArguments maxNesting hu) hu
  exact (Lexicon.Shapes.iff_nesting ⟨maxNesting, hshape⟩ maxNesting).mp hshape

/-- A selector of the shape that reading gives, nested however deep, is read back from its written
form if lists are nested as deep as is allowed at most; nested any deeper, it is refused. -/
theorem Selector.parse_render_of_shapes (s : Selector) (h : Lexicon.grammar.Shapes s) :
    (s.nesting ≤ maxNesting → Selector.parse s.render = .ok s) ∧
      (maxNesting < s.nesting → ∃ e, Selector.parse s.render = .error e) := by
  constructor
  · intro hle
    exact Selector.parse_of_isSelectorText (h.isSelector_render.mono_depth hle)
  · intro hlt
    cases hparse : Selector.parse s.render with
    | error e => exact ⟨e, rfl⟩
    | ok s' =>
      -- both are words for the same text once lists may be nested as deep as in `s`
      have hs' : Spaced (IsSelector (IsArgumentList s.nesting) false) s.render s' :=
        (Selector.isSelectorText_of_parse hparse).mono_depth (Nat.le_of_lt hlt)
      obtain rfl := IsSelector.unique h.isSelector_render hs'
      exact absurd (Selector.nesting_le_of_parse hparse) (Nat.not_le_of_lt hlt)

/-- `:not(:not(…))` around the type `a`, with the given number of lists nested in each other. -/
def Selector.negated : Nat → Selector
  | 0 => ⟨[.type ['a']]⟩
  | depth + 1 => ⟨[.pseudoClass "not".toList (.selectors [negated depth])]⟩

/-- With one list inside the other, 64 of them are read back and 65 are refused. -/
theorem Selector.parse_render_of_shapes_negated :
    Lexicon.grammar.Shapes (negated 64) ∧ Lexicon.grammar.Shapes (negated 65) ∧
      Selector.parse (negated 64).render = .ok (negated 64) ∧
      ∃ e, Selector.parse (negated 65).render = .error e := by
  have hallowed : Lexicon.grammar.Shapes (negated 64) := by decide +kernel
  have hdeeper : Lexicon.grammar.Shapes (negated 65) := by decide +kernel
  exact ⟨hallowed, hdeeper, (Selector.parse_render_of_shapes _ hallowed).1 (by decide +kernel),
    (Selector.parse_render_of_shapes _ hdeeper).2 (by decide +kernel)⟩

end FilterList.Css
