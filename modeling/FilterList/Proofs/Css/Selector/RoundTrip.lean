import FilterList.Proofs.Css.Canonical
import FilterList.Proofs.Css.Selector.Reading
set_option autoImplicit false

/-!
# Selectors are read back as they were

Each production of the grammar has a canonical word for what it stands for, and that word is what
the writer gives.  So a selector that was read at all is read again from its written form.
-/

namespace FilterList.Css

open Token Reader Text

/-! ## Attributes -/

theorem IsValue.canonical : Canonical IsValue AttributeValue.render := by
  intro u value h
  cases h with
  | string hs =>
    obtain ⟨hword, hspell⟩ := IsString.canonical _ _ hs
    exact ⟨.string hword, hspell⟩
  | identifier hn => exact ⟨.identifier hn, hn.respelled⟩

theorem IsFlags.canonical (value : AttributeValue) :
    Canonical (IsFlags value) Attribute.renderFlags := by
  intro u flags h
  cases h with
  | absent => exact ⟨.absent, .nil rfl⟩
  | present hw _ hn =>
    refine ⟨.present (w := [' ']) (.char rfl .nil) (fun _ => by simp) hn, ?_⟩
    exact (hn.respelled.gap_append (hw.endsEscaping rfl)).blank_append hn.2

theorem AttributeOperator.respelled (operator : AttributeOperator) :
    Respelled operator.render operator.render := by
  have hequals : Respelled ['='] ['='] := .sign rfl
  cases operator with
  | equals => exact hequals
  | includes => exact hequals.cons rfl
  | dashMatch => exact hequals.cons rfl
  | startsWith => exact hequals.cons rfl
  | endsWith => exact hequals.cons rfl
  | contains => exact hequals.cons rfl

theorem IsAttribute.canonical {u : Text} {a : Attribute} (h : IsAttribute u a) :
    ∃ v, a.render = '[' :: v ∧ IsAttribute v a ∧ Respelled u v := by
  have hclose : Respelled [']'] [']'] := .sign rfl
  cases h with
  | @named w n w' hw hn hw' =>
    refine ⟨[] ++ n ++ [] ++ [']'], by simp [Attribute.render], .named .nil hn .nil, ?_⟩
    have hname := hn.respelled.gap_append (hw.endsEscaping rfl)
    exact (hname.append (.nil (hw'.endsEscaping rfl))).append hclose
  | @compared w n w' w₁ v f w₂ operator value flags hw hn hw' hw₁ hv hf hw₂ =>
    obtain ⟨hvalue, hvspell⟩ := IsValue.canonical _ _ hv
    obtain ⟨hflags, hfspell⟩ := IsFlags.canonical value _ _ hf
    refine ⟨[] ++ n ++ [] ++ operator.render ++ [] ++ value.render ++ Attribute.renderFlags flags ++
      [] ++ [']'], ?_, .compared .nil hn .nil .nil hvalue hflags .nil, ?_⟩
    · simp [Attribute.render, AttributeMatcher.render]
    · have hname := (hn.respelled.gap_append (hw.endsEscaping rfl)).append
        (.nil (hw'.endsEscaping rfl))
      have hcompared := ((hname.append operator.respelled).append
        (.nil (hw₁.endsEscaping rfl))).append hvspell
      exact ((hcompared.append hfspell).append (.nil (hw₂.endsEscaping rfl))).append hclose

/-! ## Compounds -/

theorem IsType.canonical : Canonical IsType Node.render := by
  intro u node h
  cases h with
  | any => exact ⟨.any, .sign rfl⟩
  | named hn => exact ⟨.named hn, hn.respelled⟩

section

variable {Args : Text → List Selector → Prop}

theorem IsSubclass.canonical (hargs : Canonical Args Selector.renderList) :
    Canonical (IsSubclass Args) Node.render := by
  intro u node h
  have hcolon : ∀ {u v : Text}, Respelled u v → Respelled (':' :: u) (':' :: v) :=
    fun h => h.cons rfl
  have hverbatim : ∀ {r : Text}, Balanced r →
      Respelled ('(' :: r ++ [')']) ('(' :: r ++ [')']) :=
    fun hr => .group (closesQuotations_of_pass (hr.pass 0)) fun _ _ _ _ => Nat.le_refl _
  cases h with
  | id hn => exact ⟨.id hn, hn.respelled.cons rfl⟩
  | className hn => exact ⟨.className hn, hn.respelled.cons rfl⟩
  | attr ha =>
    obtain ⟨v, hrender, hword, hspell⟩ := ha.canonical
    rw [Node.render, hrender]
    exact ⟨.attr hword, hspell.cons rfl⟩
  | @pseudoElement n hn =>
    have htext : (Node.pseudoElement ⟨n, none⟩).render = ':' :: ':' :: n := by
      simp [Node.render, PseudoElement.render]
    rw [htext]
    exact ⟨.pseudoElement hn, hcolon (hcolon hn.respelled)⟩
  | @pseudoElementOf n r hn hr =>
    have htext : (Node.pseudoElement ⟨n, some r⟩).render =
        ':' :: ':' :: n ++ '(' :: r ++ [')'] := by simp [Node.render, PseudoElement.render]
    rw [htext]
    refine ⟨.pseudoElementOf hn hr, ?_⟩
    simpa using hcolon (hcolon (hn.respelled.append (hverbatim hr)))
  | @pseudoClass n hn =>
    have htext : (Node.pseudoClass n .absent).render = ':' :: n := by
      simp [Node.render, PseudoArgument.render]
    rw [htext]
    exact ⟨.pseudoClass hn, hcolon hn.respelled⟩
  | @selectors n u list hn ht hu =>
    obtain ⟨hword, hspell⟩ := hargs _ _ hu
    have htext : (Node.pseudoClass n (.selectors list)).render =
        ':' :: n ++ '(' :: Selector.renderList list ++ [')'] := by
      simp [Node.render, PseudoArgument.render, Selector.renderList]
    rw [htext]
    refine ⟨.selectors hn ht hword, ?_⟩
    have hopen := hspell.cons (c := '(') rfl
    have hgroup := hopen.append (.sign (c := ')') rfl)
    simpa using hcolon (hn.respelled.append hgroup)
  | @verbatim n r hn ht hr =>
    have htext : (Node.pseudoClass n (.verbatim r)).render = ':' :: n ++ '(' :: r ++ [')'] := by
      simp [Node.render, PseudoArgument.render]
    rw [htext]
    refine ⟨.verbatim hn ht hr, ?_⟩
    simpa using hcolon (hn.respelled.append (hverbatim hr))

/-- Where no combinator stands, nodes are written one behind the other. -/
theorem IsType.renderAll_cons {u : Text} {node : Node} (h : IsType u node) (atFront : Bool)
    (rest : List Node) :
    Node.renderAll atFront (node :: rest) = node.render ++ Node.renderAll false rest := by
  cases h with
  | any => rfl
  | named _ => rfl

theorem IsSubclass.renderAll_cons {u : Text} {node : Node} (h : IsSubclass Args u node)
    (atFront : Bool) (rest : List Node) :
    Node.renderAll atFront (node :: rest) = node.render ++ Node.renderAll false rest := by
  cases h <;> rfl

theorem Node.renderAll_row {u : Text} {nodes : List Node} (h : Row (IsSubclass Args) u nodes)
    (rest : List Node) :
    Node.renderAll false (nodes ++ rest) =
      (nodes.map Node.render).flatten ++ Node.renderAll false rest := by
  induction h with
  | nil => rfl
  | cons hs _ ih =>
    rw [List.cons_append, hs.renderAll_cons, ih]
    simp

theorem IsCompound.renderAll_append {u : Text} {nodes : List Node} (h : IsCompound Args u nodes)
    (atFront : Bool) (rest : List Node) :
    Node.renderAll atFront (nodes ++ rest) =
      (nodes.map Node.render).flatten ++ Node.renderAll false rest := by
  cases h with
  | typed ht hu =>
    rw [List.cons_append, ht.renderAll_cons, Node.renderAll_row hu]
    simp
  | untyped hu hne =>
    cases hu with
    | nil => exact absurd rfl hne
    | cons hs hrow =>
      rw [List.cons_append, hs.renderAll_cons, Node.renderAll_row hrow]
      simp

theorem IsCompound.renderAll_eq {u : Text} {nodes : List Node} (h : IsCompound Args u nodes)
    (atFront : Bool) : Node.renderAll atFront nodes = (nodes.map Node.render).flatten := by
  have := h.renderAll_append atFront []
  rw [List.append_nil] at this
  rw [this]
  simp [Node.renderAll]

theorem IsCompound.canonical (hargs : Canonical Args Selector.renderList) (atFront : Bool) :
    Canonical (IsCompound Args) (Node.renderAll atFront) := by
  intro u nodes h
  rw [h.renderAll_eq atFront]
  cases h with
  | typed ht hu =>
    obtain ⟨htype, htspell⟩ := IsType.canonical _ _ ht
    obtain ⟨hrow, hrspell⟩ := (IsSubclass.canonical hargs).row _ _ hu
    exact ⟨.typed htype hrow, htspell.append hrspell⟩
  | untyped hu hne =>
    obtain ⟨hrow, hrspell⟩ := (IsSubclass.canonical hargs).row _ _ hu
    exact ⟨.untyped hrow hne, hrspell⟩

theorem IsCompound.ne_nil {u : Text} {nodes : List Node} (h : IsCompound Args u nodes) :
    u ≠ [] := by
  obtain ⟨c, v, rfl, -⟩ := h.exists_cons
  simp

/-! ## Selectors -/

theorem Combinator.respelled {sign : Combinator} (h : sign ≠ .descendant) :
    Respelled sign.render sign.render := by
  cases sign with
  | descendant => exact absurd rfl h
  | child => exact .sign rfl
  | nextSibling => exact .sign rfl
  | subsequentSibling => exact .sign rfl

theorem Combinator.renderWithin_of_ne {sign : Combinator} (h : sign ≠ .descendant)
    (atFront : Bool) :
    sign.renderWithin atFront =
      if atFront then sign.render ++ [' '] else ' ' :: sign.render ++ [' '] := by
  cases sign with
  | descendant => exact absurd rfl h
  | child => rfl
  | nextSibling => rfl
  | subsequentSibling => rfl

theorem Combinator.render_ne_nil (sign : Combinator) : sign.render ≠ [] := by
  cases sign <;> simp [Combinator.render]

theorem IsStep.canonical (hargs : Canonical Args Selector.renderList) :
    Canonical (IsStep Args) (Node.renderAll false) := by
  intro u nodes h
  cases h with
  | @sign w w' u sign nodes hw hsign hw' hu =>
    obtain ⟨hword, hspell⟩ := IsCompound.canonical hargs false _ _ hu
    have htext : Node.renderAll false (.combinator sign :: nodes) =
        [' '] ++ sign.render ++ [' '] ++ Node.renderAll false nodes := by
      rw [Node.renderAll, Combinator.renderWithin_of_ne hsign]
      simp
    rw [htext]
    refine ⟨.sign (.char rfl .nil) hsign (.char rfl .nil) hword, ?_⟩
    have hbehind := (hspell.blank_append hword.ne_nil).gap_append (hw'.endsEscaping rfl)
    have hsigned := ((Combinator.respelled hsign).append hbehind).blank_append
      (by simp [sign.render_ne_nil])
    simpa using hsigned.gap_append (hw.endsEscaping rfl)
  | @descendant w u nodes hw _ hu =>
    obtain ⟨hword, hspell⟩ := IsCompound.canonical hargs false _ _ hu
    have htext : Node.renderAll false (.combinator .descendant :: nodes) =
        [' '] ++ Node.renderAll false nodes := rfl
    rw [htext]
    refine ⟨.descendant (.char rfl .nil) (by simp) hword, ?_⟩
    exact (hspell.blank_append hword.ne_nil).gap_append (hw.endsEscaping rfl)

/-- Behind the front, how a node is written does not depend on what stands before it. -/
theorem Node.renderAll_false_append (nodes rest : List Node) :
    Node.renderAll false (nodes ++ rest) =
      Node.renderAll false nodes ++ Node.renderAll false rest := by
  induction nodes with
  | nil => rfl
  | cons node nodes ih =>
    cases node
    all_goals
      rw [List.cons_append, Node.renderAll, Node.renderAll, ih, List.append_assoc]
      all_goals simp

theorem Node.renderAll_flatten (steps : List (List Node)) :
    Node.renderAll false steps.flatten = (steps.map (Node.renderAll false)).flatten := by
  induction steps with
  | nil => rfl
  | cons step steps ih =>
    rw [List.flatten_cons, Node.renderAll_false_append, ih]
    simp

theorem IsComplex.exists_cons {u : Text} {nodes : List Node} (h : IsComplex Args u nodes) :
    ∃ c v, u = c :: v ∧ (opensType c = true ∨ opensSubclass c = true) := by
  obtain ⟨hu, -⟩ := h
  obtain ⟨c, v, rfl, hc⟩ := hu.exists_cons
  exact ⟨c, _, rfl, hc⟩

theorem IsComplex.ne_nil {u : Text} {nodes : List Node} (h : IsComplex Args u nodes) :
    u ≠ [] := by
  obtain ⟨c, v, rfl, -⟩ := h.exists_cons
  simp

theorem IsComplex.canonical (hargs : Canonical Args Selector.renderList) (atFront : Bool) :
    Canonical (IsComplex Args) (Node.renderAll atFront) := by
  intro u nodes h
  obtain ⟨hu, hv⟩ := h
  obtain ⟨hcompound, hcspell⟩ := IsCompound.canonical hargs atFront _ _ hu
  obtain ⟨hsteps, hsspell⟩ := (IsStep.canonical hargs).row _ _ hv
  rw [hu.renderAll_append, Node.renderAll_flatten, ← hu.renderAll_eq atFront]
  exact ⟨.mk hcompound hsteps, hcspell.append hsspell⟩

theorem IsSelector.canonical (hargs : Canonical Args Selector.renderList) (relative : Bool) :
    Canonical (IsSelector Args relative) Selector.render := by
  intro u selector h
  obtain @⟨w, l, u, lead, nodes, hw, hlead, hu⟩ := h
  rw [Selector.render]
  cases hlead with
  | absent =>
    obtain ⟨hword, hspell⟩ := IsComplex.canonical hargs true _ _ hu
    refine ⟨.mk (w := []) (l := []) .nil .absent hword, ?_⟩
    rw [List.append_nil]
    exact hspell.gap_append (hw.endsEscaping rfl)
  | @sign w' sign hrel hsign hw' =>
    obtain ⟨hword, hspell⟩ := IsComplex.canonical hargs false _ _ hu
    have htext : Node.renderAll true ([.combinator sign] ++ nodes) =
        [] ++ (sign.render ++ [' ']) ++ Node.renderAll false nodes := by
      rw [List.singleton_append, Node.renderAll, Combinator.renderWithin_of_ne hsign]
      simp
    rw [htext]
    refine ⟨.mk .nil (.sign hrel hsign (.char rfl .nil)) hword, ?_⟩
    have hbehind := (hspell.blank_append hword.ne_nil).gap_append (hw'.endsEscaping rfl)
    simpa using ((Combinator.respelled hsign).append hbehind).gap_append (hw.endsEscaping rfl)

theorem IsSelector.ne_nil {relative : Bool} {u : Text} {selector : Selector}
    (h : IsSelector Args relative u selector) : u ≠ [] := by
  obtain ⟨-, -, hu⟩ := h
  simp [hu.ne_nil]

theorem IsSelector.blank_cons {relative : Bool} {u : Text} {selector : Selector}
    (h : IsSelector Args relative u selector) : IsSelector Args relative (' ' :: u) selector := by
  obtain ⟨hw, hlead, hu⟩ := h
  exact .mk (.char rfl hw) hlead hu

theorem IsSelectorList.canonical (hargs : Canonical Args Selector.renderList) (relative : Bool) :
    Canonical (IsSelectorList Args relative) Selector.renderList := by
  have hitem := (IsSelector.canonical hargs relative).spaced
  refine hitem.commaList [' '] ?_ ?_
  · intro s selector h
    obtain ⟨u, w, rfl, hu, hw⟩ := h
    exact ⟨' ' :: u, w, rfl, hu.blank_cons, hw⟩
  · intro s selector h u v hspell
    obtain ⟨x, y, hrender, hx, -⟩ := (hitem s selector h).1
    exact hspell.blank_append (by rw [hrender]; simp [hx.ne_nil])

end

theorem IsArgumentList.canonical (depth : Nat) :
    Canonical (IsArgumentList depth) Selector.renderList := by
  induction depth with
  | zero =>
    intro u list h
    exact absurd h id
  | succ depth ih => exact IsSelectorList.canonical ih true

theorem IsSelectorListText.canonical : Canonical IsSelectorListText Selector.renderList :=
  IsSelectorList.canonical (IsArgumentList.canonical maxNesting) false

theorem IsSelectorText.canonical : Canonical IsSelectorText Selector.render :=
  (IsSelector.canonical (IsArgumentList.canonical maxNesting) false).spaced

theorem Selector.parse_render {t : Text} {selector : Selector}
    (h : Selector.parse t = .ok selector) : Selector.parse selector.render = .ok selector := by
  have hword := (IsSelectorText.canonical _ _ (Selector.isSelectorText_of_parse h)).1
  exact Selector.parse_of_isSelectorText hword

theorem Selector.parseList_renderList {t : Text} {list : List Selector}
    (h : Selector.parseList t = .ok list) :
    Selector.parseList (Selector.renderList list) = .ok list := by
  have hword := (IsSelectorListText.canonical _ _ (Selector.parseList_eq_ok_iff.mp h)).1
  exact Selector.parseList_eq_ok_iff.mpr hword

theorem Selector.respelled_of_parseList {t : Text} {list : List Selector}
    (h : Selector.parseList t = .ok list) : Respelled t (Selector.renderList list) :=
  (IsSelectorListText.canonical _ _ (Selector.parseList_eq_ok_iff.mp h)).2

/-- A written list of selectors begins with a simple selector. -/
theorem Selector.exists_renderList_cons {t : Text} {list : List Selector}
    (h : Selector.parseList t = .ok list) :
    ∃ c v, Selector.renderList list = c :: v ∧ (opensType c = true ∨ opensSubclass c = true) := by
  have hlist := Selector.parseList_eq_ok_iff.mp h
  obtain ⟨s, first, others, rfl, u, w, -, hu, -⟩ := hlist.exists_cons
  obtain @⟨_, _, _, lead, nodes, -, hlead, hcomplex⟩ := hu
  have hargs := IsArgumentList.canonical maxNesting
  obtain ⟨c, v, hrender, hc⟩ := (IsComplex.canonical hargs true _ _ hcomplex).1.exists_cons
  have hfirst : Selector.render ⟨lead ++ nodes⟩ = c :: v := by
    cases hlead with
    | absent => exact hrender
    | sign hrel _ _ => cases hrel
  cases others with
  | nil => exact ⟨c, v, by simp [Selector.renderList, hfirst], hc⟩
  | cons second others =>
    rw [Selector.renderList, List.map_cons, List.map_cons, Selector.separator, intercalate_comma,
      hfirst]
    exact ⟨c, _, rfl, hc⟩

/-- Trimming a written list of selectors does no harm exactly if it does nothing. -/
theorem Selector.parseList_trim_iff {t : Text} {list : List Selector}
    (h : Selector.parseList t = .ok list) :
    Selector.parseList (trim (Selector.renderList list)) = .ok list ↔
      trim (Selector.renderList list) = Selector.renderList list := by
  constructor
  · intro htrim
    refine (Selector.respelled_of_parseList htrim).trim_eq ?_
    obtain ⟨c, v, hrender, hc⟩ := Selector.exists_renderList_cons h
    intro hhead
    rw [hrender] at hhead
    cases hhead
    exact absurd (opens_facts hc).1 (by decide)
  · intro htrim
    rw [htrim]
    exact Selector.parseList_renderList h

/-- A selector that was read is read again from its written form, and so is a list of selectors. -/
theorem Selector.parse_render_of_parse (t : Text) :
    (∀ selector, Selector.parse t = .ok selector →
      Selector.parse selector.render = .ok selector) ∧
    (∀ list, Selector.parseList t = .ok list →
      Selector.parseList (Selector.renderList list) = .ok list) :=
  ⟨fun _ h => Selector.parse_render h, fun _ h => Selector.parseList_renderList h⟩

theorem Selector.parse_render_of_parse_nested :
    ∃ selector, Selector.parse "a:not( >b ,[c='d\"'])".toList = .ok selector ∧
      Selector.parse selector.render = .ok selector ∧
      Selector.parseList "a:not( >b ,[c='d\"'])".toList = .ok [selector] ∧
      Selector.parseList (Selector.renderList [selector]) = .ok [selector] := by
  refine ⟨⟨[.type ['a'], .pseudoClass "not".toList (.selectors
    [⟨[.combinator .child, .type ['b']]⟩,
      ⟨[.attr ⟨['c'], some ⟨.equals, .string ['d', '\\', '"']⟩, none⟩]⟩])]⟩,
    ?one, (Selector.parse_render_of_parse _).1 _ ?one,
    ?list, (Selector.parse_render_of_parse _).2 _ ?list⟩
  · exact Reader.parseAs_eq_ok_iff.mpr (by decide +kernel)
  · exact Reader.parseAs_eq_ok_iff.mpr (by decide +kernel)

end FilterList.Css
