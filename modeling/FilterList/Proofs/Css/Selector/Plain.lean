import FilterList.Proofs.Css.Selector.Shape
import FilterList.Proofs.Text.Joining
import FilterList.Proofs.Text.Nesting
set_option autoImplicit false

/-!
# Plain selectors

The words of plain selectors hold no escapes and no white space, and their verbatim arguments hold
no bare brace and only brackets that match in kind.  Written, plain selectors close all that they
open and end firmly on either side, so no scan that looks for something behind them stops within.
-/

namespace FilterList.Css

open Token Text

/-! ## Plain words -/

/-- A name that needs no escape and holds no white space. -/
def isPlainWord (n : Text) : Bool := isPlainName n && n.all fun c => !isWhiteSpace c

theorem isName_of_isPlainWord {n : Text} (h : isPlainWord n = true) : IsName n := by
  rw [isPlainWord, Bool.and_eq_true, isPlainName_iff] at h
  obtain ⟨⟨hne, hchars⟩, -⟩ := h
  refine ⟨?_, hne⟩
  clear hne
  induction n with
  | nil => exact .nil
  | cons c n ih => exact .char (hchars c (by simp)) (ih fun d hd => hchars d (by simp [hd]))

theorem all_isNameChar_of_isPlainWord {n : Text} (h : isPlainWord n = true) :
    n.all isNameChar = true := by
  rw [isPlainWord, Bool.and_eq_true, isPlainName_iff] at h
  exact List.all_eq_true.mpr h.1.2

theorem trim_of_isPlainWord {n : Text} (h : isPlainWord n = true) : trim n = n := by
  simp only [isPlainWord, Bool.and_eq_true, List.all_eq_true, Bool.not_eq_true'] at h
  rw [trim_eq_self_iff]
  exact ⟨fun c hc => h.2 c (List.mem_of_mem_head? hc), fun c hc => h.2 c (List.mem_of_getLast? hc)⟩

theorem solid_of_isPlainWord {n : Text} (h : isPlainWord n = true) : Solid n where
  closed := .of_all (by decide) (all_isNameChar_of_isPlainWord h)
  ne_nil := (isName_of_isPlainWord h).2
  trimmed := trim_of_isPlainWord h

namespace Lexicon

/-- The words of plain selectors. -/
def plain : Lexicon where
  isName := isPlainWord
  isString := isStringContent
  isVerbatim r := decide (Bracketed anyBrace r)

theorem within_plain : plain.Within where
  name _ h := isName_of_isPlainWord h
  string _ h := h
  verbatim _ h := (of_decide_eq_true h).balanced

/-! ## Plain selectors are written solidly -/

theorem solid_verbatim {r : Text} (h : plain.isVerbatim r = true) : Solid ('(' :: r ++ [')']) :=
  .round (.of_bracketed (of_decide_eq_true h))

theorem closed_value {value : AttributeValue} (h : plain.shapesValue value = true) :
    Closed value.render := by
  cases value with
  | string content => exact .quotation (quotedAs_of_isStringContent h).inQuotes
  | identifier name => exact (solid_of_isPlainWord h).closed

theorem closed_operator (operator : AttributeOperator) : Closed operator.render :=
  .of_all (p := (['=', '~', '|', '^', '$', '*'].contains ·)) (by decide)
    (by cases operator <;> decide)

theorem closed_flags {flags : Option Text} (h : flags.all plain.isName = true) :
    Closed (Attribute.renderFlags flags) := by
  cases flags with
  | none => exact .nil
  | some flags => exact Closed.blank.append (solid_of_isPlainWord h).closed

theorem solid_attribute {a : Attribute} (h : plain.shapesAttribute a = true) : Solid a.render := by
  obtain ⟨name, matcher, flags⟩ := a
  simp only [shapesAttribute, Bool.and_eq_true] at h
  obtain ⟨hname, h⟩ := h
  have hclosed := (solid_of_isPlainWord hname).closed
  cases matcher with
  | none => exact .square hclosed
  | some m =>
    simp only [Bool.and_eq_true] at h
    have hcompared := (closed_operator m.operator).append (closed_value h.1)
    have hsolid := Solid.square ((hclosed.append hcompared).append (closed_flags h.2))
    simpa [Attribute.render, AttributeMatcher.render] using hsolid

section

variable {lists : List Selector → Bool}

theorem solid_argument (hlists : ∀ list, lists list = true → Solid (Selector.renderList list))
    {name : Text} (hname : Solid name) {argument : PseudoArgument}
    (h : plain.shapesArgument lists name argument = true) : Solid (name ++ argument.render) := by
  cases argument with
  | absent => simpa [PseudoArgument.render] using hname
  | selectors list =>
    simp only [shapesArgument, Bool.and_eq_true] at h
    have hlist := Solid.round (hlists list h.2).closed
    simpa [PseudoArgument.render, Selector.renderList] using hname.append hlist
  | verbatim r =>
    simp only [shapesArgument, Bool.and_eq_true] at h
    simpa [PseudoArgument.render] using hname.append (solid_verbatim h.2)

theorem solid_subclass (hlists : ∀ list, lists list = true → Solid (Selector.renderList list))
    {node : Node} (h : plain.shapesSubclass lists node = true) : Solid node.render := by
  have hcolon : Solid [':'] := .sign (by decide)
  cases node with
  | type name => cases h
  | combinator sign => cases h
  | id name => exact Solid.append (.sign (by decide)) (solid_of_isPlainWord h)
  | className name => exact Solid.append (.sign (by decide)) (solid_of_isPlainWord h)
  | attr a => exact solid_attribute h
  | pseudoClass name argument =>
    simp only [shapesSubclass, Bool.and_eq_true] at h
    exact hcolon.append (solid_argument hlists (solid_of_isPlainWord h.1) h.2)
  | pseudoElement e =>
    obtain ⟨name, argument⟩ := e
    simp only [shapesSubclass, Bool.and_eq_true] at h
    have hname := hcolon.append (hcolon.append (solid_of_isPlainWord h.1))
    cases argument with
    | none => simpa [Node.render, PseudoElement.render] using hname
    | some r =>
      simpa [Node.render, PseudoElement.render] using hname.append (solid_verbatim h.2)

theorem solid_type {name : Text} (h : plain.shapesType name = true) : Solid name := by
  rw [shapesType, Bool.or_eq_true, beq_iff_eq] at h
  rcases h with rfl | h
  · exact .sign (by decide)
  · exact solid_of_isPlainWord h

theorem closed_combinator (sign : Combinator) (atFront : Bool) :
    Closed (sign.renderWithin atFront) :=
  .of_all (p := ([' ', '>', '+', '~'].contains ·)) (by decide)
    (by cases sign <;> cases atFront <;> decide)

/-- A compound that begins is written solidly with all that follows, and what follows a compound
within keeps the text solid. -/
theorem solid_nodes (hlists : ∀ list, lists list = true → Solid (Selector.renderList list))
    {begins : Bool} {nodes : List Node} (h : plain.shapesNodes lists begins nodes = true) :
    if begins then ∀ atFront, Solid (Node.renderAll atFront nodes)
    else ∀ s, Solid s → Solid (s ++ Node.renderAll false nodes) := by
  induction nodes generalizing begins with
  | nil =>
    cases begins with
    | true => cases h
    | false => simp [Node.renderAll]
  | cons node rest ih =>
    -- What any node but a combinator does, once its own text is known to be solid.
    have hnode : Solid node.render →
        (∀ atFront, Node.renderAll atFront (node :: rest) =
          node.render ++ Node.renderAll false rest) →
        plain.shapesNodes lists false rest = true →
        if begins then ∀ atFront, Solid (Node.renderAll atFront (node :: rest))
        else ∀ s, Solid s → Solid (s ++ Node.renderAll false (node :: rest)) := by
      intro hsolid hrender hrest
      have hkeeps := ih hrest
      simp only [hrender]
      cases begins with
      | true => exact fun _ => hkeeps _ hsolid
      | false =>
        intro s hs
        rw [← List.append_assoc]
        exact hkeeps _ (hs.append hsolid)
    by_cases hsub : plain.shapesSubclass lists node = true
    · rw [shapesNodes_subclass hsub] at h
      refine hnode (solid_subclass hlists hsub) (fun atFront => ?_) h
      cases node with
      | combinator sign => cases hsub
      | _ => rfl
    · cases node with
      | combinator sign =>
        simp only [shapesNodes, Bool.and_eq_true, Bool.not_eq_true'] at h
        obtain ⟨rfl, hrest⟩ := h
        intro s hs
        rw [Node.renderAll, ← List.append_assoc]
        exact hs.between (closed_combinator sign false) (ih hrest false)
      | type name =>
        simp only [shapesNodes, Bool.and_eq_true] at h
        exact hnode (solid_type h.1.2) (fun _ => rfl) h.2
      | _ =>
        simp only [shapesNodes, Bool.and_eq_true] at h
        exact absurd h.1 hsub

theorem solid_selector (hlists : ∀ list, lists list = true → Solid (Selector.renderList list))
    {relative : Bool} {selector : Selector}
    (h : plain.shapesSelector lists relative selector = true) : Solid selector.render := by
  obtain ⟨nodes⟩ := selector
  unfold shapesSelector at h
  rw [Selector.render]
  split at h
  · next sign rest hnodes =>
    rw [Bool.and_eq_true, bne_iff_ne] at h
    have hrest : Solid (Node.renderAll false rest) := solid_nodes hlists h.2 false
    have hsign : Solid sign.render := by
      cases sign with
      | descendant => exact absurd rfl h.1
      | child => exact .sign (by decide)
      | nextSibling => exact .sign (by decide)
      | subsequentSibling => exact .sign (by decide)
    rw [show nodes = .combinator sign :: rest from hnodes, Node.renderAll,
      Combinator.renderWithin_of_ne h.1]
    exact hsign.between .blank hrest
  · exact solid_nodes hlists h true

theorem solid_selectors (hlists : ∀ list, lists list = true → Solid (Selector.renderList list))
    {relative : Bool} {list : List Selector}
    (h : plain.shapesSelectors lists relative list = true) :
    Solid (Selector.renderList list) := by
  simp only [shapesSelectors, Bool.and_eq_true, Bool.not_eq_true', List.isEmpty_eq_false_iff,
    List.all_eq_true] at h
  obtain ⟨hne, hall⟩ := h
  have hcomma : Closed Selector.separator := .of_all (p := ([',', ' '].contains ·)) (by decide) rfl
  refine intercalate_holds (fun _ _ hs ht => hs.between hcomma ht) (by simpa using hne) ?_
  intro s hs
  obtain ⟨selector, hselector, rfl⟩ := List.mem_map.mp hs
  exact solid_selector hlists (hall selector hselector)

end

theorem solid_arguments (depth : Nat) {list : List Selector}
    (h : plain.shapesArguments depth list = true) : Solid (Selector.renderList list) := by
  induction depth generalizing list with
  | zero => cases h
  | succ depth ih => exact solid_selectors (fun _ hlist => ih hlist) h

theorem solid_renderList {list : List Selector} (h : plain.shapesList list = true) :
    Solid (Selector.renderList list) :=
  solid_selectors (fun _ hlist => solid_arguments maxNesting hlist) h

end Lexicon

end FilterList.Css
