import FilterList.Proofs.Css.Selector.Attribute
set_option autoImplicit false

/-!
# Compounds are read by their grammar

The reader of nested lists is a parameter of the readers of this file, as the language of such
lists is a parameter of the grammar: whatever is proved of the one for the other carries over to
compounds.
-/

namespace FilterList.Css

open Token Reader

/-! ## Simple selectors -/

/-- The text goes on with nothing that belongs to a simple selector that has begun. -/
def EndsNode (s : Text) : Prop := ∀ c, s.head? = some c → extendsNode c = false

theorem EndsNode.endsName {s : Text} (h : EndsNode s) : EndsName s := by
  cases s with
  | nil => exact endsName_nil
  | cons c s =>
    have hc := h c rfl
    simp only [extendsNode, Bool.or_eq_false_iff, beq_eq_false_iff_ne] at hc
    exact endsName_cons hc.1.1 hc.1.2 s

theorem EndsNode.beginsWith {s : Text} (h : EndsNode s) : Text.beginsWith '(' s = false := by
  cases s with
  | nil => rfl
  | cons c s =>
    have hc := h c rfl
    simp only [extendsNode, Bool.or_eq_false_iff, beq_eq_false_iff_ne] at hc
    simp [Text.beginsWith, hc.2]

theorem endsName_open (t : Text) : EndsName ('(' :: t) := endsName_cons (by decide) (by decide) t

/-- The parentheses around a word. -/
def Parenthesised {α : Type} (L : Text → α → Prop) (s : Text) (a : α) : Prop :=
  ∃ u, s = '(' :: u ++ [')'] ∧ L u a

theorem Node.pseudoElementReader_sound (Args : Text → List Selector → Prop) {s rest : Text}
    {node : Node} (h : Node.pseudoElementReader s = .done node rest) :
    ∃ u, s = u ++ rest ∧ IsSubclass Args (':' :: ':' :: u) node := by
  unfold Node.pseudoElementReader at h
  simp only [bind_eq_done_iff, committed_eq_done_iff, lookingAt_eq_done_iff] at h
  obtain ⟨n, mid, hn, b, _, ⟨hb, rfl⟩, h⟩ := h
  obtain ⟨rfl, hname, -⟩ := name_sound hn
  cases b with
  | true =>
    simp only [if_true, bind_eq_done_iff, committed_eq_done_iff, group_eq_done_iff,
      pure_eq_done_iff] at h
    obtain ⟨r, _, ⟨rfl, hr⟩, rfl, rfl⟩ := h
    exact ⟨n ++ '(' :: r ++ [')'], by simp, .pseudoElementOf hname hr⟩
  | false =>
    simp only [Bool.false_eq_true, if_false, pure_eq_done_iff] at h
    obtain ⟨rfl, rfl⟩ := h
    exact ⟨n, rfl, .pseudoElement hname⟩

/-- The reader looks for the name in its list word by word; all words are in small letters. -/
theorem takesSelectors_iff {n : Text} : takesSelectors n = true ↔ NamesSelectors n := by
  have hlower : ∀ word ∈ selectorListNames, word.map Char.toLower = word := by decide
  rw [takesSelectors, List.any_eq_true, NamesSelectors]
  constructor
  · rintro ⟨word, hword, heq⟩
    rw [Text.eqIgnoreCase_comm, Text.eqIgnoreCase_iff_of_lower (hlower word hword)] at heq
    rwa [heq]
  · intro hword
    refine ⟨n.map Char.toLower, hword, ?_⟩
    rw [Text.eqIgnoreCase_comm, Text.eqIgnoreCase_iff_of_lower (hlower _ hword)]

theorem takesSelectors_eq_false_iff {n : Text} :
    takesSelectors n = false ↔ ¬ NamesSelectors n := by
  rw [← takesSelectors_iff, Bool.not_eq_true]

section

variable {Args : Text → List Selector → Prop} {arguments : Reader (List Selector)}

theorem Node.pseudoClassReader_sound (hargs : Sound (Parenthesised Args) arguments)
    {s rest : Text} {node : Node} (h : Node.pseudoClassReader arguments s = .done node rest) :
    ∃ u, s = u ++ rest ∧ IsSubclass Args (':' :: u) node := by
  unfold Node.pseudoClassReader at h
  simp only [bind_eq_done_iff, committed_eq_done_iff, expecting_eq_done_iff,
    lookingAt_eq_done_iff] at h
  obtain ⟨n, mid, hn, b, _, ⟨hb, rfl⟩, h⟩ := h
  obtain ⟨rfl, hname, -⟩ := name_sound hn
  cases b with
  | true =>
    cases ht : takesSelectors n with
    | true =>
      simp only [ht, if_true, bind_eq_done_iff, pure_eq_done_iff] at h
      obtain ⟨list, _, hlist, rfl, rfl⟩ := h
      obtain ⟨_, rfl, u, rfl, hu⟩ := hargs _ _ _ hlist
      exact ⟨n ++ '(' :: u ++ [')'], by simp, .selectors hname (takesSelectors_iff.mp ht) hu⟩
    | false =>
      simp only [ht, if_true, Bool.false_eq_true, if_false, bind_eq_done_iff,
        committed_eq_done_iff, expecting_eq_done_iff, group_eq_done_iff, pure_eq_done_iff] at h
      obtain ⟨r, _, ⟨rfl, hr⟩, rfl, rfl⟩ := h
      exact ⟨n ++ '(' :: r ++ [')'], by simp,
        .verbatim hname (takesSelectors_eq_false_iff.mp ht) hr⟩
  | false =>
    simp only [Bool.false_eq_true, if_false, pure_eq_done_iff] at h
    obtain ⟨rfl, rfl⟩ := h
    exact ⟨n, rfl, .pseudoClass hname⟩

theorem Node.subclassReader_sound (hargs : Sound (Parenthesised Args) arguments) :
    Sound (IsSubclass Args) (Node.subclassReader arguments) := by
  intro s node rest h
  unfold Node.subclassReader at h
  split at h
  · rw [map_eq_done_iff] at h
    obtain ⟨n, hn, rfl⟩ := h
    obtain ⟨rfl, hname, -⟩ := name_sound (committed_eq_done_iff.mp hn)
    exact ⟨'#' :: n, rfl, .id hname⟩
  · rw [map_eq_done_iff] at h
    obtain ⟨n, hn, rfl⟩ := h
    obtain ⟨rfl, hname, -⟩ := name_sound (committed_eq_done_iff.mp hn)
    exact ⟨'.' :: n, rfl, .className hname⟩
  · rw [map_eq_done_iff] at h
    obtain ⟨a, ha, rfl⟩ := h
    obtain ⟨u, rfl, hu⟩ := Attribute.reader_sound _ a rest (committed_eq_done_iff.mp ha)
    exact ⟨'[' :: u, rfl, .attr hu⟩
  · obtain ⟨u, rfl, hu⟩ := Node.pseudoElementReader_sound Args h
    exact ⟨':' :: ':' :: u, rfl, hu⟩
  · obtain ⟨u, rfl, hu⟩ := Node.pseudoClassReader_sound hargs h
    exact ⟨':' :: u, rfl, hu⟩
  · cases h

theorem Node.progress_subclassReader (hargs : Sound (Parenthesised Args) arguments) :
    Progress (Node.subclassReader arguments) :=
  progress_of_sound (Node.subclassReader_sound hargs) fun _ _ h => h.ne_nil

theorem Node.subclassReader_colon {s : Text} (h : s.head? ≠ some ':') :
    Node.subclassReader arguments (':' :: s) = Node.pseudoClassReader arguments s := by
  rw [Node.subclassReader]
  intro rest hs
  rw [hs] at h
  exact h rfl

theorem Token.IsName.head_ne_colon {n : Text} (h : IsName n) (t : Text) :
    (n ++ t).head? ≠ some ':' := by
  obtain ⟨c, m, rfl, hc⟩ := h.exists_cons
  intro hcolon
  simp only [List.cons_append, List.head?_cons, Option.some.injEq] at hcolon
  subst hcolon
  rcases hc with hc | hc
  all_goals exact absurd hc (by decide)

theorem Node.subclassReader_complete
    (hargs : Complete (Parenthesised Args) (fun _ => True) arguments) :
    Complete (IsSubclass Args) EndsNode (Node.subclassReader arguments) := by
  intro u node rest h hrest
  have hname := hrest.endsName
  cases h with
  | id hn =>
    rw [List.cons_append, Node.subclassReader, map_eq_done_iff]
    exact ⟨_, committed_eq_done_iff.mpr (name_complete hn hname), rfl⟩
  | className hn =>
    rw [List.cons_append, Node.subclassReader, map_eq_done_iff]
    exact ⟨_, committed_eq_done_iff.mpr (name_complete hn hname), rfl⟩
  | attr ha =>
    rw [List.cons_append, Node.subclassReader, map_eq_done_iff]
    exact ⟨_, committed_eq_done_iff.mpr (Attribute.reader_complete _ _ _ ha trivial), rfl⟩
  | @pseudoElement n hn =>
    rw [List.cons_append, List.cons_append, Node.subclassReader, Node.pseudoElementReader]
    simp only [bind_eq_done_iff, committed_eq_done_iff, lookingAt_eq_done_iff]
    exact ⟨n, rest, name_complete hn hname, false, rest, ⟨hrest.beginsWith, rfl⟩, rfl⟩
  | @pseudoElementOf n r hn hr =>
    have htext : ':' :: ':' :: n ++ '(' :: r ++ [')'] ++ rest =
        ':' :: ':' :: (n ++ '(' :: (r ++ ')' :: rest)) := by simp
    rw [htext, Node.subclassReader, Node.pseudoElementReader]
    simp only [bind_eq_done_iff, committed_eq_done_iff, lookingAt_eq_done_iff]
    refine ⟨n, _, name_complete hn (endsName_open _), true, _, ⟨rfl, rfl⟩, ?_⟩
    simp only [if_true, bind_eq_done_iff, committed_eq_done_iff, group_eq_done_iff,
      pure_eq_done_iff]
    exact ⟨r, rest, ⟨rfl, hr⟩, rfl, rfl⟩
  | @pseudoClass n hn =>
    rw [List.cons_append, Node.subclassReader_colon (hn.head_ne_colon rest),
      Node.pseudoClassReader]
    simp only [bind_eq_done_iff, committed_eq_done_iff, expecting_eq_done_iff,
      lookingAt_eq_done_iff]
    exact ⟨n, rest, name_complete hn hname, false, rest, ⟨hrest.beginsWith, rfl⟩, rfl⟩
  | @selectors n u list hn ht hu =>
    have htext : ':' :: n ++ '(' :: u ++ [')'] ++ rest =
        ':' :: (n ++ ('(' :: u ++ [')'] ++ rest)) := by simp
    rw [htext, Node.subclassReader_colon (hn.head_ne_colon _), Node.pseudoClassReader]
    simp only [bind_eq_done_iff, committed_eq_done_iff, expecting_eq_done_iff,
      lookingAt_eq_done_iff]
    refine ⟨n, _, name_complete hn (endsName_open _), true, _, ⟨rfl, rfl⟩, ?_⟩
    simp only [takesSelectors_iff.mpr ht, if_true, bind_eq_done_iff, pure_eq_done_iff]
    exact ⟨list, rest, hargs _ list rest ⟨u, rfl, hu⟩ trivial, rfl, rfl⟩
  | @verbatim n r hn ht hr =>
    have htext :
        ':' :: n ++ '(' :: r ++ [')'] ++ rest = ':' :: (n ++ '(' :: (r ++ ')' :: rest)) := by
      simp
    rw [htext, Node.subclassReader_colon (hn.head_ne_colon _), Node.pseudoClassReader]
    simp only [bind_eq_done_iff, committed_eq_done_iff, expecting_eq_done_iff,
      lookingAt_eq_done_iff]
    refine ⟨n, _, name_complete hn (endsName_open _), true, _, ⟨rfl, rfl⟩, ?_⟩
    simp only [takesSelectors_eq_false_iff.mpr ht, if_true, Bool.false_eq_true, if_false,
      bind_eq_done_iff, committed_eq_done_iff, expecting_eq_done_iff, group_eq_done_iff,
      pure_eq_done_iff]
    exact ⟨r, rest, ⟨rfl, hr⟩, rfl, rfl⟩

theorem Node.typeReader_cons {c : Char} (hc : c ≠ '*') (s : Text) :
    Node.typeReader (c :: s) = (Node.type <$> Token.name) (c :: s) := by
  rw [Node.typeReader]
  intro rest h
  exact absurd (List.cons.inj h).1 hc

theorem Node.typeReader_sound : Sound IsType Node.typeReader := by
  intro s node rest h
  unfold Node.typeReader at h
  split at h
  · cases h
    exact ⟨['*'], rfl, .any⟩
  · rw [map_eq_done_iff] at h
    obtain ⟨n, hn, rfl⟩ := h
    obtain ⟨rfl, hname, -⟩ := name_sound hn
    exact ⟨n, rfl, .named hname⟩

theorem Node.typeReader_complete : Complete IsType EndsNode Node.typeReader := by
  intro u node rest h hrest
  cases h with
  | any => rfl
  | named hn =>
    obtain ⟨c, m, rfl, hc⟩ := hn.exists_cons
    have hstar : c ≠ '*' := by
      intro h
      subst h
      rcases hc with hc | hc
      all_goals exact absurd hc (by decide)
    rw [List.cons_append, Node.typeReader_cons hstar, map_eq_done_iff]
    exact ⟨c :: m, name_complete hn hrest.endsName, rfl⟩

theorem Node.refuses_typeReader {s : Text} (h : ∀ c, s.head? = some c → opensType c = false) :
    Refuses Node.typeReader s := by
  cases s with
  | nil => exact Refuses.map (refuses_name endsName_nil)
  | cons c s =>
    have hc := h c rfl
    simp only [opensType, Bool.or_eq_false_iff, beq_eq_false_iff_ne] at hc
    obtain ⟨failure, rest, hf⟩ :=
      Refuses.map (f := Node.type) (refuses_name (endsName_cons hc.1.1 hc.1.2 s))
    exact ⟨failure, rest, by rw [Node.typeReader_cons hc.2]; exact hf.1, hf.2⟩

theorem Node.refuses_subclassReader {s : Text}
    (h : ∀ c, s.head? = some c → opensSubclass c = false) :
    Refuses (Node.subclassReader arguments) s := by
  refine ⟨.soft, s, ?_, rfl⟩
  unfold Node.subclassReader
  split
  all_goals first
    | rfl
    | exact absurd (h _ rfl) (by decide)

/-- The text goes on with nothing that belongs to a compound that has begun. -/
def EndsCompound (s : Text) : Prop :=
  ∀ c, s.head? = some c → extendsNode c = false ∧ opensSubclass c = false

theorem EndsCompound.endsNode {s : Text} (h : EndsCompound s) : EndsNode s :=
  fun c hc => (h c hc).1

theorem extendsNode_of_opensSubclass {c : Char} (h : opensSubclass c = true) :
    extendsNode c = false := by
  simp only [opensSubclass, Bool.or_eq_true, beq_iff_eq] at h
  rcases h with ((h | h) | h) | h <;> subst h <;> decide

theorem IsSubclass.endsNode {u : Text} {node : Node} (h : IsSubclass Args u node) (t : Text) :
    EndsNode (u ++ t) := by
  obtain ⟨c, v, rfl, hc⟩ := h.exists_cons
  intro d hd
  simp only [List.cons_append, List.head?_cons, Option.some.injEq] at hd
  subst hd
  exact extendsNode_of_opensSubclass hc

theorem Node.many_subclassReader_complete (hsound : Sound (Parenthesised Args) arguments)
    (hcomplete : Complete (Parenthesised Args) (fun _ => True) arguments) :
    Complete (Row (IsSubclass Args)) EndsCompound (many (Node.subclassReader arguments)) :=
  many_complete (Node.progress_subclassReader hsound) (Node.subclassReader_complete hcomplete)
    (fun _ _ t h => h.endsNode t)
    (fun _ h => ⟨h.endsNode, Node.refuses_subclassReader fun c hc => (h c hc).2⟩)

theorem Node.compoundReader_sound (hargs : Sound (Parenthesised Args) arguments) :
    Sound (IsCompound Args) (Node.compoundReader arguments) := by
  intro s nodes rest h
  unfold Node.compoundReader at h
  simp only [bind_eq_done_iff, attempt_eq_done_iff] at h
  obtain ⟨type, mid, htype, others, rest', hothers, h⟩ := h
  obtain ⟨u, rfl, hu⟩ :=
    many_sound (Node.subclassReader_sound hargs) (fun _ _ h => h.ne_nil) _ _ _ hothers
  rcases htype with ⟨node, rfl, htype⟩ | ⟨rfl, hmid, -⟩
  · obtain ⟨t, rfl, ht⟩ := Node.typeReader_sound s node _ htype
    simp only [Option.toList_some, List.cons_append, List.nil_append, pure_eq_done_iff] at h
    obtain ⟨rfl, rfl⟩ := h
    exact ⟨t ++ u, by simp, .typed ht hu⟩
  · subst hmid
    cases others with
    | nil => exact absurd h fail_ne_done
    | cons node others =>
      simp only [Option.toList_none, List.nil_append, pure_eq_done_iff] at h
      obtain ⟨rfl, rfl⟩ := h
      exact ⟨u, rfl, .untyped hu (by simp)⟩

theorem Node.compoundReader_complete (hsound : Sound (Parenthesised Args) arguments)
    (hcomplete : Complete (Parenthesised Args) (fun _ => True) arguments) :
    Complete (IsCompound Args) EndsCompound (Node.compoundReader arguments) := by
  intro s nodes rest h hrest
  have hmany := Node.many_subclassReader_complete hsound hcomplete
  unfold Node.compoundReader
  simp only [bind_eq_done_iff, attempt_eq_done_iff]
  cases h with
  | @typed t u node nodes ht hu =>
    have hends : EndsNode (u ++ rest) := by
      cases hu with
      | nil => exact hrest.endsNode
      | cons hs _ =>
        rw [List.append_assoc]
        exact hs.endsNode _
    rw [List.append_assoc]
    exact ⟨some node, u ++ rest, .inl ⟨node, rfl, Node.typeReader_complete t node _ ht hends⟩,
      nodes, rest, hmany u nodes rest hu hrest, rfl⟩
  | untyped hu hne =>
    refine ⟨none, s ++ rest, .inr ⟨rfl, rfl, Node.refuses_typeReader ?_⟩, nodes, rest,
      hmany s nodes rest hu hrest, ?_⟩
    · cases hu with
      | nil => exact absurd rfl hne
      | cons hs _ =>
        obtain ⟨c, v, rfl, hc⟩ := hs.exists_cons
        intro d hd
        simp only [List.cons_append, List.head?_cons, Option.some.injEq] at hd
        subst hd
        simp only [opensSubclass, Bool.or_eq_true, beq_iff_eq] at hc
        rcases hc with ((hc | hc) | hc) | hc <;> subst hc <;> decide
    · cases nodes with
      | nil => exact absurd rfl hne
      | cons node nodes => rfl

theorem Node.refuses_compoundReader (hargs : Sound (Parenthesised Args) arguments) {s : Text}
    (htype : ∀ c, s.head? = some c → opensType c = false)
    (hsub : ∀ c, s.head? = some c → opensSubclass c = false) :
    Refuses (Node.compoundReader arguments) s := by
  have hattempt : attempt Node.typeReader s = .done none s :=
    attempt_eq_done_iff.mpr (.inr ⟨rfl, rfl, Node.refuses_typeReader htype⟩)
  have hmany : many (Node.subclassReader arguments) s = .done [] s :=
    (many_eq_done_nil_iff (Node.progress_subclassReader hargs)).mpr
      ⟨rfl, Node.refuses_subclassReader hsub⟩
  exact refuses_bind_of_done hattempt (refuses_bind_of_done hmany (refuses_fail s))

end

end FilterList.Css
