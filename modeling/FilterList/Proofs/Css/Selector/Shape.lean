import FilterList.Proofs.Css.Selector.RoundTrip
set_option autoImplicit false

/-!
# The shape of selectors

Reading gives selectors of one shape: compounds with at most one type, at their front, single
combinators between them, and lists of selectors as the arguments of certain pseudo-classes only,
nested to a bounded depth.  The shape is defined here on the selectors themselves, without a text,
and up to a `Lexicon` that says what may stand for a name, a string and a verbatim argument.  With
the words of the grammar it is exactly the shape of what reading gives.
-/

namespace FilterList.Css

open Token Text

/-! ## Shapes -/

/-- What may stand for the names, the strings and the verbatim arguments of selectors. -/
structure Lexicon where
  isName : Text → Bool
  isString : Text → Bool
  isVerbatim : Text → Bool

namespace Lexicon

section

variable (lexicon : Lexicon)

/-- A value made of words of the lexicon. -/
def shapesValue : AttributeValue → Bool
  | .string content => lexicon.isString content
  | .identifier name => lexicon.isName name

/-- An attribute selector with flags behind a comparison only. -/
def shapesAttribute (a : Attribute) : Bool :=
  lexicon.isName a.name &&
    match a.matcher with
    | none => a.flags.isNone
    | some m => lexicon.shapesValue m.value && a.flags.all lexicon.isName

/-- An argument of the kind that the pseudo-class takes; `lists` says which lists may be nested. -/
def shapesArgument (lists : List Selector → Bool) (name : Text) : PseudoArgument → Bool
  | .absent => true
  | .selectors list => decide (NamesSelectors name) && lists list
  | .verbatim text => !decide (NamesSelectors name) && lexicon.isVerbatim text

/-- A simple selector other than a type. -/
def shapesSubclass (lists : List Selector → Bool) : Node → Bool
  | .id name | .className name => lexicon.isName name
  | .attr a => lexicon.shapesAttribute a
  | .pseudoClass name argument =>
    lexicon.isName name && lexicon.shapesArgument lists name argument
  | .pseudoElement e => lexicon.isName e.name && e.argument.all lexicon.isVerbatim
  | .type _ | .combinator _ => false

/-- `*` or a name. -/
def shapesType (name : Text) : Bool := name == ['*'] || lexicon.isName name

/-- Compounds with combinators between them, from where a compound begins or from within one. -/
def shapesNodes (lists : List Selector → Bool) : (begins : Bool) → List Node → Bool
  | begins, [] => !begins
  | begins, .combinator _ :: rest => !begins && shapesNodes lists true rest
  | begins, .type name :: rest => begins && lexicon.shapesType name && shapesNodes lists false rest
  | _, node :: rest => lexicon.shapesSubclass lists node && shapesNodes lists false rest

/-- A selector, which may start with the sign of a combinator if it is relative. -/
def shapesSelector (lists : List Selector → Bool) (relative : Bool) (selector : Selector) : Bool :=
  match relative, selector.nodes with
  | true, .combinator sign :: rest => sign != .descendant && lexicon.shapesNodes lists true rest
  | _, nodes => lexicon.shapesNodes lists true nodes

/-- Some selectors, at least one. -/
def shapesSelectors (lists : List Selector → Bool) (relative : Bool)
    (list : List Selector) : Bool :=
  !list.isEmpty && list.all (lexicon.shapesSelector lists relative)

/-- A list of relative selectors in which such lists are nested less than `depth` deep. -/
def shapesArguments : Nat → List Selector → Bool
  | 0, _ => false
  | depth + 1, list => lexicon.shapesSelectors (shapesArguments depth) true list

/-- A list of selectors in which lists are nested as deep as is allowed at most. -/
def shapesList (list : List Selector) : Bool :=
  lexicon.shapesSelectors (lexicon.shapesArguments maxNesting) false list

end

/-- Behind a simple selector a compound goes on, wherever it stood. -/
theorem shapesNodes_subclass {lexicon : Lexicon} {lists : List Selector → Bool} {node : Node}
    (h : lexicon.shapesSubclass lists node = true) (begins : Bool) (rest : List Node) :
    lexicon.shapesNodes lists begins (node :: rest) = lexicon.shapesNodes lists false rest := by
  cases node with
  | type name => cases h
  | combinator sign => cases h
  | _ => simp only [shapesNodes, h, Bool.true_and]

/-! ## Strings as they are kept -/

/-- Characters other than double quotes and backslashes, and escapes other than that of a single
quote. -/
def isStringContent : Text → Bool
  | [] => true
  | '\\' :: c :: rest => c != '\'' && isStringContent rest
  | c :: rest => c != '"' && c != '\\' && isStringContent rest

theorem isStringContent_cons {c : Char} (hc : c ≠ '\\') (s : Text) :
    isStringContent (c :: s) = (c != '"' && isStringContent s) := by
  have hc' : (c != '\\') = true := bne_iff_ne.mpr hc
  rw [isStringContent, hc', Bool.and_true]
  intro _ _ h _
  exact hc h

theorem isStringContent_of_quotedAs {quote : Char} {body content : Text}
    (h : QuotedAs quote body content) : isStringContent content = true := by
  induction h with
  | nil => rfl
  | escapedApostrophe _ ih => rw [isStringContent_cons (by decide), ih]; rfl
  | escape hc _ ih => simp [isStringContent, hc, ih]
  | doubleQuote _ _ ih => simp [isStringContent, ih]
  | char _ hd hb _ ih => simp [isStringContent_cons hb, hd, ih]

theorem quotedAs_of_isStringContent {s : Text} (h : isStringContent s = true) :
    QuotedAs '"' s s := by
  induction s using escapeInduction with
  | nil => exact .nil
  | lone => cases h
  | escape c s ih =>
    rw [isStringContent, Bool.and_eq_true, bne_iff_ne] at h
    exact .escape h.1 (ih h.2)
  | char c s hc ih =>
    rw [isStringContent_cons hc, Bool.and_eq_true, bne_iff_ne] at h
    exact .char h.1 h.1 hc (ih h.2)

/-! ## Shaped selectors have a text -/

/-- The words of the lexicon are words of the grammar. -/
structure Within (lexicon : Lexicon) : Prop where
  name : ∀ n, lexicon.isName n = true → IsName n
  string : ∀ s, lexicon.isString s = true → isStringContent s = true
  verbatim : ∀ r, lexicon.isVerbatim r = true → Balanced r

section

variable {lexicon : Lexicon} {lists : List Selector → Bool} {Args : Text → List Selector → Prop}

theorem Within.exists_value (hw : lexicon.Within) {value : AttributeValue}
    (h : lexicon.shapesValue value = true) : ∃ v, IsValue v value := by
  cases value with
  | string content =>
    have hquoted := quotedAs_of_isStringContent (hw.string content h)
    exact ⟨_, .string ⟨'"', content, rfl, rfl, hquoted⟩⟩
  | identifier name => exact ⟨_, .identifier (hw.name name h)⟩

theorem Within.exists_attribute (hw : lexicon.Within) {a : Attribute}
    (h : lexicon.shapesAttribute a = true) : ∃ u, IsAttribute u a := by
  obtain ⟨name, matcher, flags⟩ := a
  simp only [shapesAttribute, Bool.and_eq_true] at h
  obtain ⟨hname, h⟩ := h
  cases matcher with
  | none =>
    obtain rfl := Option.isNone_iff_eq_none.mp h
    exact ⟨_, .named .nil (hw.name name hname) .nil⟩
  | some m =>
    simp only [Bool.and_eq_true] at h
    obtain ⟨hvalue, hflags⟩ := h
    obtain ⟨v, hv⟩ := hw.exists_value hvalue
    obtain ⟨f, hf⟩ : ∃ f, IsFlags m.value f flags := by
      cases flags with
      | none => exact ⟨[], .absent⟩
      | some flags =>
        exact ⟨_, .present (w := [' ']) (.char rfl .nil) (fun _ => by simp) (hw.name flags hflags)⟩
    exact ⟨_, .compared .nil (hw.name name hname) .nil .nil hv hf .nil⟩

theorem Within.exists_subclass (hw : lexicon.Within)
    (hlists : ∀ list, lists list = true → ∃ u, Args u list) {node : Node}
    (h : lexicon.shapesSubclass lists node = true) : ∃ u, IsSubclass Args u node := by
  cases node with
  | type name => cases h
  | combinator sign => cases h
  | id name => exact ⟨_, .id (hw.name name h)⟩
  | className name => exact ⟨_, .className (hw.name name h)⟩
  | attr a =>
    obtain ⟨u, hu⟩ := hw.exists_attribute h
    exact ⟨_, .attr hu⟩
  | pseudoElement e =>
    obtain ⟨name, argument⟩ := e
    simp only [shapesSubclass, Bool.and_eq_true] at h
    cases argument with
    | none => exact ⟨_, .pseudoElement (hw.name name h.1)⟩
    | some r => exact ⟨_, .pseudoElementOf (hw.name name h.1) (hw.verbatim r h.2)⟩
  | pseudoClass name argument =>
    simp only [shapesSubclass, Bool.and_eq_true] at h
    obtain ⟨hname, hargument⟩ := h
    cases argument with
    | absent => exact ⟨_, .pseudoClass (hw.name name hname)⟩
    | selectors list =>
      simp only [shapesArgument, Bool.and_eq_true, decide_eq_true_eq] at hargument
      obtain ⟨u, hu⟩ := hlists list hargument.2
      exact ⟨_, .selectors (hw.name name hname) hargument.1 hu⟩
    | verbatim r =>
      simp only [shapesArgument, Bool.and_eq_true, Bool.not_eq_true', decide_eq_false_iff_not]
        at hargument
      exact ⟨_, .verbatim (hw.name name hname) hargument.1 (hw.verbatim r hargument.2)⟩

theorem Within.exists_type (hw : lexicon.Within) {name : Text}
    (h : lexicon.shapesType name = true) : ∃ u, IsType u (.type name) := by
  rw [shapesType, Bool.or_eq_true, beq_iff_eq] at h
  rcases h with rfl | h
  · exact ⟨_, .any⟩
  · exact ⟨_, .named (hw.name name h)⟩

/-- What may follow within a compound: simple selectors, and then combinators with compounds. -/
inductive IsRest (Args : Text → List Selector → Prop) : Text → List Node → Prop
  | mk {u v : Text} {nodes : List Node} {steps : List (List Node)} :
      Reader.Row (IsSubclass Args) u nodes → Reader.Row (IsStep Args) v steps →
      IsRest Args (u ++ v) (nodes ++ steps.flatten)

theorem exists_step (sign : Combinator) {u : Text} {nodes : List Node}
    (h : IsCompound Args u nodes) : ∃ v, IsStep Args v (.combinator sign :: nodes) := by
  by_cases hsign : sign = .descendant
  · subst hsign
    exact ⟨_, .descendant (w := [' ']) (.char rfl .nil) (by simp) h⟩
  · exact ⟨_, .sign .nil hsign .nil h⟩

theorem Within.exists_nodes (hw : lexicon.Within)
    (hlists : ∀ list, lists list = true → ∃ u, Args u list) {begins : Bool} {nodes : List Node}
    (h : lexicon.shapesNodes lists begins nodes = true) :
    ∃ u, if begins then IsComplex Args u nodes else IsRest Args u nodes := by
  induction nodes generalizing begins with
  | nil =>
    cases begins with
    | true => cases h
    | false => exact ⟨[], show IsRest Args ([] ++ []) ([] ++ [].flatten) from .mk .nil .nil⟩
  | cons node rest ih =>
    by_cases hsub : lexicon.shapesSubclass lists node = true
    · rw [shapesNodes_subclass hsub] at h
      obtain ⟨u, hu⟩ := hw.exists_subclass hlists hsub
      obtain ⟨_, @⟨v, w, others, steps, hv, hw⟩⟩ := ih h
      cases begins with
      | false => exact ⟨_, .mk (.cons hu hv) hw⟩
      | true => exact ⟨_, .mk (.untyped (.cons hu hv) (by simp)) hw⟩
    · cases node with
      | combinator sign =>
        simp only [shapesNodes, Bool.and_eq_true, Bool.not_eq_true'] at h
        obtain ⟨rfl, hrest⟩ := h
        obtain ⟨_, @⟨v, w, first, steps, hv, hw⟩⟩ := ih hrest
        obtain ⟨u, hu⟩ := exists_step sign hv
        have hnone : Reader.Row (IsSubclass Args) [] [] := .nil
        exact ⟨_, .mk hnone (.cons hu hw)⟩
      | type name =>
        simp only [shapesNodes, Bool.and_eq_true] at h
        obtain ⟨⟨rfl, htype⟩, hrest⟩ := h
        obtain ⟨u, hu⟩ := hw.exists_type htype
        obtain ⟨_, @⟨v, w, others, steps, hv, hw⟩⟩ := ih hrest
        exact ⟨_, .mk (.typed hu hv) hw⟩
      | _ =>
        simp only [shapesNodes, Bool.and_eq_true] at h
        exact absurd h.1 hsub

theorem Within.exists_selector (hw : lexicon.Within)
    (hlists : ∀ list, lists list = true → ∃ u, Args u list) {relative : Bool} {selector : Selector}
    (h : lexicon.shapesSelector lists relative selector = true) :
    ∃ u, IsSelector Args relative u selector := by
  obtain ⟨nodes⟩ := selector
  unfold shapesSelector at h
  split at h
  · next sign rest hnodes =>
    rw [Bool.and_eq_true, bne_iff_ne] at h
    obtain ⟨u, hu⟩ := hw.exists_nodes hlists h.2
    rw [show nodes = [.combinator sign] ++ rest from hnodes]
    exact ⟨_, .mk (w := []) .nil (.sign rfl h.1 .nil) hu⟩
  · obtain ⟨u, hu⟩ := hw.exists_nodes hlists h
    exact ⟨_, .mk (w := []) .nil .absent hu⟩

theorem Within.exists_selectors (hw : lexicon.Within)
    (hlists : ∀ list, lists list = true → ∃ u, Args u list) {relative : Bool}
    {list : List Selector} (h : lexicon.shapesSelectors lists relative list = true) :
    ∃ u, IsSelectorList Args relative u list := by
  simp only [shapesSelectors, Bool.and_eq_true, List.all_eq_true] at h
  obtain ⟨hne, hall⟩ := h
  induction list with
  | nil => cases hne
  | cons first others ih =>
    obtain ⟨u, hu⟩ := hw.exists_selector hlists (hall first List.mem_cons_self)
    have hspaced : Spaced (IsSelector Args relative) u first := ⟨u, [], by simp, hu, .nil⟩
    cases others with
    | nil => exact ⟨_, .one hspaced⟩
    | cons second others =>
      obtain ⟨v, hv⟩ := ih rfl fun s hs => hall s (List.mem_cons_of_mem _ hs)
      exact ⟨_, .cons hspaced hv⟩

theorem Within.exists_arguments (hw : lexicon.Within) (depth : Nat) {list : List Selector}
    (h : lexicon.shapesArguments depth list = true) : ∃ u, IsArgumentList depth u list := by
  induction depth generalizing list with
  | zero => cases h
  | succ depth ih => exact hw.exists_selectors (fun list hlist => ih hlist) h

/-- Selectors of the shape, in words of the grammar, are read from some text. -/
theorem Within.exists_parseList (hw : lexicon.Within) {list : List Selector}
    (h : lexicon.shapesList list = true) : ∃ t, Selector.parseList t = .ok list := by
  obtain ⟨t, ht⟩ := hw.exists_selectors (fun list hlist => hw.exists_arguments maxNesting hlist) h
  exact ⟨t, Selector.parseList_eq_ok_iff.mpr ht⟩

end

/-! ## What was read has the shape -/

/-- The words of the grammar are words of the lexicon. -/
structure Covers (lexicon : Lexicon) : Prop where
  name : ∀ n, IsName n → lexicon.isName n = true
  string : ∀ s, isStringContent s = true → lexicon.isString s = true
  verbatim : ∀ r, Balanced r → lexicon.isVerbatim r = true

section

variable {lexicon : Lexicon} {lists : List Selector → Bool} {Args : Text → List Selector → Prop}

theorem Covers.shapesValue (hc : lexicon.Covers) {u : Text} {value : AttributeValue}
    (h : IsValue u value) : lexicon.shapesValue value = true := by
  cases h with
  | string hs =>
    obtain ⟨quote, body, -, -, hbody⟩ := hs
    exact hc.string _ (isStringContent_of_quotedAs hbody)
  | identifier hn => exact hc.name _ hn

theorem Covers.shapesAttribute (hc : lexicon.Covers) {u : Text} {a : Attribute}
    (h : IsAttribute u a) : lexicon.shapesAttribute a = true := by
  cases h with
  | named _ hn _ => simp [Lexicon.shapesAttribute, hc.name _ hn]
  | compared _ hn _ _ hv hf _ =>
    cases hf with
    | absent => simp [Lexicon.shapesAttribute, hc.name _ hn, hc.shapesValue hv]
    | present _ _ hflags =>
      simp [Lexicon.shapesAttribute, hc.name _ hn, hc.shapesValue hv, hc.name _ hflags]

theorem Covers.shapesSubclass (hc : lexicon.Covers)
    (hlists : ∀ u list, Args u list → lists list = true) {u : Text} {node : Node}
    (h : IsSubclass Args u node) : lexicon.shapesSubclass lists node = true := by
  cases h with
  | id hn => exact hc.name _ hn
  | className hn => exact hc.name _ hn
  | attr ha => exact hc.shapesAttribute ha
  | pseudoElement hn => simp [Lexicon.shapesSubclass, hc.name _ hn]
  | pseudoElementOf hn hr => simp [Lexicon.shapesSubclass, hc.name _ hn, hc.verbatim _ hr]
  | pseudoClass hn => simp [Lexicon.shapesSubclass, shapesArgument, hc.name _ hn]
  | selectors hn ht hu =>
    simp [Lexicon.shapesSubclass, shapesArgument, hc.name _ hn, ht, hlists _ _ hu]
  | verbatim hn ht hr =>
    simp [Lexicon.shapesSubclass, shapesArgument, hc.name _ hn, ht, hc.verbatim _ hr]

theorem Covers.shapesNodes_row (hc : lexicon.Covers)
    (hlists : ∀ u list, Args u list → lists list = true) {u : Text} {nodes : List Node}
    (h : Reader.Row (IsSubclass Args) u nodes) (rest : List Node) :
    lexicon.shapesNodes lists false (nodes ++ rest) = lexicon.shapesNodes lists false rest := by
  induction h with
  | nil => rfl
  | cons hs _ ih =>
    rw [List.cons_append, shapesNodes_subclass (hc.shapesSubclass hlists hs), ih]

theorem Covers.shapesNodes_compound (hc : lexicon.Covers)
    (hlists : ∀ u list, Args u list → lists list = true) {u : Text} {nodes : List Node}
    (h : IsCompound Args u nodes) (rest : List Node) :
    lexicon.shapesNodes lists true (nodes ++ rest) = lexicon.shapesNodes lists false rest := by
  cases h with
  | typed ht hu =>
    rw [List.cons_append]
    cases ht with
    | any => rw [shapesNodes, hc.shapesNodes_row hlists hu]; rfl
    | named hn => rw [shapesNodes, hc.shapesNodes_row hlists hu]; simp [shapesType, hc.name _ hn]
  | untyped hu hne =>
    cases hu with
    | nil => exact absurd rfl hne
    | cons hs hrow =>
      rw [List.cons_append, shapesNodes_subclass (hc.shapesSubclass hlists hs),
        hc.shapesNodes_row hlists hrow]

theorem Covers.shapesNodes_complex (hc : lexicon.Covers)
    (hlists : ∀ u list, Args u list → lists list = true) {u : Text} {nodes : List Node}
    (h : IsComplex Args u nodes) : lexicon.shapesNodes lists true nodes = true := by
  obtain ⟨hu, hv⟩ := h
  rw [hc.shapesNodes_compound hlists hu]
  induction hv with
  | nil => rfl
  | cons hstep _ ih =>
    rw [List.flatten_cons]
    cases hstep with
    | sign _ _ _ hu => simpa [shapesNodes, hc.shapesNodes_compound hlists hu] using ih
    | descendant _ _ hu => simpa [shapesNodes, hc.shapesNodes_compound hlists hu] using ih

/-- Where a combinator stands, no compound begins. -/
theorem shapesSelector_of_shapesNodes {nodes : List Node}
    (h : lexicon.shapesNodes lists true nodes = true) (relative : Bool) :
    lexicon.shapesSelector lists relative ⟨nodes⟩ = true := by
  unfold shapesSelector
  split
  · next sign rest hnodes =>
    simp only at hnodes
    rw [hnodes, shapesNodes] at h
    cases h
  · exact h

theorem Covers.shapesSelector (hc : lexicon.Covers)
    (hlists : ∀ u list, Args u list → lists list = true) {relative : Bool} {u : Text}
    {selector : Selector} (h : IsSelector Args relative u selector) :
    lexicon.shapesSelector lists relative selector = true := by
  obtain ⟨-, hlead, hu⟩ := h
  have hnodes := hc.shapesNodes_complex hlists hu
  cases hlead with
  | absent => exact shapesSelector_of_shapesNodes hnodes relative
  | sign hrelative hsign _ =>
    rw [hrelative]
    simp [Lexicon.shapesSelector, hsign, hnodes]

theorem Covers.shapesSelectors (hc : lexicon.Covers)
    (hlists : ∀ u list, Args u list → lists list = true) {relative : Bool} {u : Text}
    {list : List Selector} (h : IsSelectorList Args relative u list) :
    lexicon.shapesSelectors lists relative list = true := by
  have hall : ∀ s ∈ list, lexicon.shapesSelector lists relative s = true := by
    refine CommaList.forall_mem ?_ h
    intro v s hs
    obtain ⟨w, -, -, hw, -⟩ := hs
    exact hc.shapesSelector hlists hw
  obtain ⟨_, first, others, rfl, -⟩ := CommaList.exists_cons h
  rw [Lexicon.shapesSelectors, List.all_eq_true.mpr hall]
  rfl

theorem Covers.shapesArguments (hc : lexicon.Covers) (depth : Nat) {u : Text}
    {list : List Selector} (h : IsArgumentList depth u list) :
    lexicon.shapesArguments depth list = true := by
  induction depth generalizing u list with
  | zero => exact absurd h id
  | succ depth ih => exact hc.shapesSelectors (fun u list hu => ih hu) h

end

/-- The words of the grammar itself. -/
def grammar : Lexicon where
  isName n := spanName n == (n, []) && !n.isEmpty
  isString := isStringContent
  isVerbatim r := group? ('(' :: r ++ [')']) == some (r, [])

theorem grammar_isName_iff {n : Text} : grammar.isName n = true ↔ IsName n := by
  simp only [grammar, Bool.and_eq_true, beq_iff_eq, Bool.not_eq_true', List.isEmpty_eq_false_iff]
  constructor
  · intro h
    have hchars := (spanName_sound n).2.1
    rw [h.1] at hchars
    exact ⟨hchars, h.2⟩
  · intro h
    have hspan := spanName_append h.1 endsName_nil
    rw [List.append_nil] at hspan
    exact ⟨hspan, h.2⟩

theorem grammar_isVerbatim_iff {r : Text} : grammar.isVerbatim r = true ↔ Balanced r := by
  simp [grammar, group?_eq_some_iff]

theorem within_grammar : grammar.Within where
  name _ h := grammar_isName_iff.mp h
  string _ h := h
  verbatim _ h := grammar_isVerbatim_iff.mp h

theorem covers_grammar : grammar.Covers where
  name _ h := grammar_isName_iff.mpr h
  string _ h := h
  verbatim _ h := grammar_isVerbatim_iff.mpr h

/-- What can be read is what has the shape in words of the grammar. -/
theorem exists_parseList_iff {list : List Selector} :
    (∃ t, Selector.parseList t = .ok list) ↔ grammar.shapesList list = true := by
  constructor
  · intro h
    obtain ⟨t, ht⟩ := h
    exact covers_grammar.shapesSelectors
      (fun _ _ hu => covers_grammar.shapesArguments maxNesting hu)
      (Selector.parseList_eq_ok_iff.mp ht)
  · intro h
    exact within_grammar.exists_parseList h

end Lexicon

end FilterList.Css
