import FilterList.Proofs.Css.Selector.Compound
set_option autoImplicit false

/-!
# Selectors are read by their grammar

A selector is a compound and then steps, and a step is known by the first character behind its
gap.  With that, the readers of nested lists are sound and complete at every depth, by induction
on the depth, and so are the readers of whole texts.
-/

namespace FilterList.Css

open Token Reader

section

variable {Args : Text → List Selector → Prop} {arguments : Reader (List Selector)}

/-! ## Combinators and steps -/

theorem Combinator.reader_eq_done_iff {s rest : Text} {sign : Combinator} :
    Combinator.reader s = .done sign rest ↔ sign ≠ .descendant ∧ s = sign.render ++ rest := by
  constructor
  · intro h
    unfold Combinator.reader at h
    split at h
    all_goals cases h
    all_goals exact ⟨by decide, rfl⟩
  · intro h
    obtain ⟨hsign, rfl⟩ := h
    cases sign with
    | descendant => exact absurd rfl hsign
    | child => rfl
    | nextSibling => rfl
    | subsequentSibling => rfl

theorem Combinator.reader_eq_failed {s : Text} (h : ∀ c, s.head? = some c → isSign c = false) :
    Combinator.reader s = .failed .soft s := by
  unfold Combinator.reader
  split
  all_goals first
    | rfl
    | exact absurd (h _ rfl) (by decide)

theorem Combinator.render_append {sign : Combinator} (h : sign ≠ .descendant) (t : Text) :
    Tight (sign.render ++ t) ∧ EndsCompound (sign.render ++ t) := by
  have hends : ∀ c, extendsNode c = false ∧ opensSubclass c = false → EndsCompound (c :: t) := by
    intro c hc d hd
    simp only [List.head?_cons, Option.some.injEq] at hd
    subst hd
    exact hc
  cases sign with
  | descendant => exact absurd rfl h
  | child => exact ⟨tight_cons (by decide) (by decide) t, hends '>' (by decide)⟩
  | nextSibling => exact ⟨tight_cons (by decide) (by decide) t, hends '+' (by decide)⟩
  | subsequentSibling => exact ⟨tight_cons (by decide) (by decide) t, hends '~' (by decide)⟩

theorem opens_facts {c : Char} (h : opensType c = true ∨ opensSubclass c = true) :
    isBlank c = false ∧ c ≠ '/' ∧ isSign c = false := by
  have hname : isNameChar c = true → isBlank c = false ∧ c ≠ '/' ∧ isSign c = false := by
    intro hn
    refine ⟨?_, ?_, ?_⟩
    · cases hb : isBlank c with
      | false => rfl
      | true => rw [isNameChar_of_isBlank hb] at hn; cases hn
    · intro hc
      subst hc
      exact absurd hn (by decide)
    · cases hs : isSign c with
      | false => rfl
      | true =>
        simp only [isSign, Bool.or_eq_true, beq_iff_eq] at hs
        rcases hs with (hs | hs) | hs <;> subst hs <;> exact absurd hn (by decide)
  simp only [opensType, opensSubclass, Bool.or_eq_true, beq_iff_eq] at h
  rcases h with ((h | h) | h) | (((h | h) | h) | h)
  · exact hname h
  all_goals
    subst h
    decide

theorem IsCompound.tight {u : Text} {nodes : List Node} (h : IsCompound Args u nodes) (t : Text) :
    Tight (u ++ t) := by
  obtain ⟨c, v, rfl, hc⟩ := h.exists_cons
  exact tight_cons (opens_facts hc).1 (opens_facts hc).2.1 _

theorem IsCompound.head_not_sign {u : Text} {nodes : List Node} (h : IsCompound Args u nodes)
    (t : Text) : ∀ c, (u ++ t).head? = some c → isSign c = false := by
  obtain ⟨c, v, rfl, hc⟩ := h.exists_cons
  intro d hd
  simp only [List.cons_append, List.head?_cons, Option.some.injEq] at hd
  subst hd
  exact (opens_facts hc).2.2

theorem Node.afterSignReader_eq_done_iff {sign : Combinator} {s rest : Text} {nodes : List Node} :
    Node.afterSignReader arguments sign s = .done nodes rest ↔
      ∃ others, nodes = .combinator sign :: others ∧
        Node.compoundReader arguments (skipBlank s) = .done others rest := by
  unfold Node.afterSignReader
  simp only [bind_eq_done_iff, blank_eq_done_iff, expecting_eq_done_iff, committed_eq_done_iff,
    pure_eq_done_iff]
  constructor
  · intro h
    obtain ⟨_, _, rfl, others, _, hothers, rfl, rfl⟩ := h
    exact ⟨others, rfl, hothers⟩
  · intro h
    obtain ⟨others, rfl, hothers⟩ := h
    exact ⟨(), _, rfl, others, rest, hothers, rfl, rfl⟩

theorem Node.descendantReader_eq_done_iff {s rest : Text} {nodes : List Node} :
    Node.descendantReader arguments s = .done nodes rest ↔
      ∃ others, nodes = .combinator .descendant :: others ∧
        Node.compoundReader arguments s = .done others rest := by
  unfold Node.descendantReader
  simp only [bind_eq_done_iff, pure_eq_done_iff]
  constructor
  · intro h
    obtain ⟨others, _, hothers, rfl, rfl⟩ := h
    exact ⟨others, rfl, hothers⟩
  · intro h
    obtain ⟨others, rfl, hothers⟩ := h
    exact ⟨others, rest, hothers, rfl, rfl⟩

theorem Node.stepReader_of_sign {s t : Text} {sign : Combinator} (hsign : sign ≠ .descendant)
    (h : skipBlank s = sign.render ++ t) :
    Node.stepReader arguments s = Node.afterSignReader arguments sign t := by
  have hread := Combinator.reader_eq_done_iff.mpr ⟨hsign, h⟩
  simp only [Node.stepReader, hread]

theorem Node.stepReader_of_not_sign {s : Text}
    (h : ∀ c, (skipBlank s).head? = some c → isSign c = false) :
    Node.stepReader arguments s =
      if (skipBlank s).length < s.length then Node.descendantReader arguments (skipBlank s)
      else .failed .soft s := by
  simp only [Node.stepReader, Combinator.reader_eq_failed h]

theorem Node.stepReader_sound (hargs : Sound (Parenthesised Args) arguments) :
    Sound (IsStep Args) (Node.stepReader arguments) := by
  intro s nodes rest h
  obtain ⟨w, hw, hgap⟩ := exists_gap_append_skipBlank s
  cases hread : Combinator.reader (skipBlank s) with
  | done sign t =>
    rw [Combinator.reader_eq_done_iff] at hread
    rw [Node.stepReader_of_sign hread.1 hread.2, Node.afterSignReader_eq_done_iff] at h
    obtain ⟨others, rfl, h⟩ := h
    obtain ⟨w', hw', hgap'⟩ := exists_gap_append_skipBlank t
    obtain ⟨u, hu, hcompound⟩ := Node.compoundReader_sound hargs _ _ _ h
    refine ⟨w ++ sign.render ++ w' ++ u, ?_, .sign hgap hread.1 hgap' hcompound⟩
    rw [hw, hread.2, hw', hu]
    simp
  | failed failure r =>
    simp only [Node.stepReader, hread] at h
    by_cases hlen : (skipBlank s).length < s.length
    · rw [if_pos hlen, Node.descendantReader_eq_done_iff] at h
      obtain ⟨others, rfl, h⟩ := h
      obtain ⟨u, hu, hcompound⟩ := Node.compoundReader_sound hargs _ _ _ h
      refine ⟨w ++ u, by rw [hw, hu]; simp, .descendant hgap ?_ hcompound⟩
      intro hnil
      rw [hnil, List.nil_append] at hw
      rw [← hw] at hlen
      exact absurd hlen (Nat.lt_irrefl _)
    · rw [if_neg hlen] at h
      cases h

theorem IsStep.ne_nil {u : Text} {nodes : List Node} (h : IsStep Args u nodes) : u ≠ [] := by
  cases h with
  | sign _ _ _ hc =>
    obtain ⟨c, v, rfl, -⟩ := hc.exists_cons
    simp
  | descendant _ _ hc =>
    obtain ⟨c, v, rfl, -⟩ := hc.exists_cons
    simp

theorem EndsCompound.gap_append {w t : Text} (ht : EndsCompound t) (hw : IsGap w) :
    EndsCompound (w ++ t) := by
  cases w with
  | nil => exact ht
  | cons c w =>
    intro d hd
    simp only [List.cons_append, List.head?_cons, Option.some.injEq] at hd
    subst hd
    rcases hw.head with hc | rfl
    · simp only [isBlank, Bool.or_eq_true, beq_iff_eq] at hc
      rcases hc with (((hc | hc) | hc) | hc) | hc <;> subst hc <;> decide
    · decide

theorem IsStep.endsCompound {u : Text} {nodes : List Node} (h : IsStep Args u nodes) (t : Text) :
    EndsCompound (u ++ t) := by
  cases h with
  | @sign w w' u sign nodes hw hsign _ _ =>
    have := ((Combinator.render_append hsign (w' ++ (u ++ t))).2).gap_append hw
    simpa using this
  | @descendant w u nodes hw hne _ =>
    cases w with
    | nil => exact absurd rfl hne
    | cons c w =>
      -- only the first character of the gap matters
      have := EndsCompound.gap_append (t := []) (fun d hd => by cases hd) hw
      intro d hd
      exact this d (by simpa using hd)

theorem Node.stepReader_complete (hsound : Sound (Parenthesised Args) arguments)
    (hcomplete : Complete (Parenthesised Args) (fun _ => True) arguments) :
    Complete (IsStep Args) EndsCompound (Node.stepReader arguments) := by
  intro s nodes rest h hrest
  have hcompound := Node.compoundReader_complete hsound hcomplete
  cases h with
  | @sign w w' u sign nodes hw hsign hw' hu =>
    have htext :
        w ++ sign.render ++ w' ++ u ++ rest = w ++ (sign.render ++ (w' ++ (u ++ rest))) := by
      simp
    have hskip := skipBlank_append hw (Combinator.render_append hsign (w' ++ (u ++ rest))).1
    rw [htext, Node.stepReader_of_sign hsign hskip, Node.afterSignReader_eq_done_iff]
    refine ⟨nodes, rfl, ?_⟩
    rw [skipBlank_append hw' (hu.tight rest)]
    exact hcompound u nodes rest hu hrest
  | @descendant w u nodes hw hne hu =>
    have hskip : skipBlank (w ++ u ++ rest) = u ++ rest := by
      rw [List.append_assoc]
      exact skipBlank_append hw (hu.tight rest)
    have hlen : (u ++ rest).length < (w ++ u ++ rest).length := by
      have := List.length_pos_iff.mpr hne
      simp only [List.length_append]
      omega
    rw [Node.stepReader_of_not_sign (by rw [hskip]; exact hu.head_not_sign rest), hskip,
      if_pos hlen, Node.descendantReader_eq_done_iff]
    exact ⟨nodes, rfl, hcompound u nodes rest hu hrest⟩

/-- Behind a gap, the text goes on with nothing that belongs to a selector that has begun. -/
def EndsSelector (s : Text) : Prop :=
  ∀ c, (skipBlank s).head? = some c →
    opensType c = false ∧ opensSubclass c = false ∧ isSign c = false ∧ c ≠ '('

theorem EndsSelector.endsCompound {s : Text} (h : EndsSelector s) : EndsCompound s := by
  obtain ⟨w, hs, hw⟩ := exists_gap_append_skipBlank s
  rw [hs]
  refine EndsCompound.gap_append ?_ hw
  intro c hc
  obtain ⟨htype, hsub, -, hopen⟩ := h c hc
  simp only [opensType, Bool.or_eq_false_iff] at htype
  exact ⟨by simp [extendsNode, htype.1.1, htype.1.2, hopen], hsub⟩

theorem Node.refuses_stepReader (hargs : Sound (Parenthesised Args) arguments) {s : Text}
    (h : EndsSelector s) : Refuses (Node.stepReader arguments) s := by
  have heq : Node.stepReader arguments s = _ :=
    Node.stepReader_of_not_sign fun c hc => (h c hc).2.2.1
  by_cases hlen : (skipBlank s).length < s.length
  · have hrefuse : Refuses (Node.descendantReader arguments) (skipBlank s) :=
      Refuses.bind (Node.refuses_compoundReader hargs (fun c hc => (h c hc).1)
        (fun c hc => (h c hc).2.1))
    rw [if_pos hlen] at heq
    obtain ⟨failure, rest, hf, hc⟩ := hrefuse
    exact ⟨failure, rest, by rw [heq, hf], hc⟩
  · rw [if_neg hlen] at heq
    exact ⟨.soft, s, heq, rfl⟩

theorem Node.many_stepReader_complete (hsound : Sound (Parenthesised Args) arguments)
    (hcomplete : Complete (Parenthesised Args) (fun _ => True) arguments) :
    Complete (Row (IsStep Args)) EndsSelector (many (Node.stepReader arguments)) :=
  many_complete
    (progress_of_sound (Node.stepReader_sound hsound) fun _ _ h => h.ne_nil)
    (Node.stepReader_complete hsound hcomplete) (fun _ _ t h => h.endsCompound t)
    (fun _ h => ⟨h.endsCompound, Node.refuses_stepReader hsound h⟩)

theorem Node.leadReader_sound {s rest : Text} {lead : List Node}
    (h : Node.leadReader s = .done lead rest) : ∃ l, s = l ++ rest ∧ IsLead true l lead := by
  unfold Node.leadReader at h
  simp only [bind_eq_done_iff, attempt_eq_done_iff] at h
  obtain ⟨o, mid, ho, h⟩ := h
  rcases ho with ⟨sign, rfl, hsign⟩ | ⟨rfl, rfl, -⟩
  · simp only [bind_eq_done_iff, blank_eq_done_iff, pure_eq_done_iff] at h
    obtain ⟨_, _, rfl, rfl, rfl⟩ := h
    rw [Combinator.reader_eq_done_iff] at hsign
    obtain ⟨w, hw, hgap⟩ := exists_gap_append_skipBlank mid
    refine ⟨sign.render ++ w, ?_, .sign rfl hsign.1 hgap⟩
    rw [List.append_assoc, ← hw]
    exact hsign.2
  · rw [pure_eq_done_iff] at h
    obtain ⟨rfl, rfl⟩ := h
    exact ⟨[], rfl, .absent⟩

theorem Node.leadReader_complete {l rest : Text} {lead : List Node} (h : IsLead true l lead)
    (htight : Tight rest) (hrest : ∀ c, rest.head? = some c → isSign c = false) :
    Node.leadReader (l ++ rest) = .done lead rest := by
  unfold Node.leadReader
  simp only [bind_eq_done_iff, attempt_eq_done_iff]
  cases h with
  | absent =>
    exact ⟨none, rest, .inr ⟨rfl, rfl, .soft, rest, Combinator.reader_eq_failed hrest, rfl⟩, rfl⟩
  | @sign w sign _ hsign hw =>
    have hread : Combinator.reader (sign.render ++ w ++ rest) = .done sign (w ++ rest) :=
      Combinator.reader_eq_done_iff.mpr ⟨hsign, by simp⟩
    refine ⟨some sign, w ++ rest, .inl ⟨sign, rfl, hread⟩, ?_⟩
    simp only [bind_eq_done_iff, blank_eq_done_iff, pure_eq_done_iff]
    exact ⟨(), rest, skipBlank_append hw htight, trivial, rfl⟩

theorem IsLead.tight_append {relative : Bool} {l t : Text} {lead : List Node}
    (h : IsLead relative l lead) (ht : Tight t) : Tight (l ++ t) := by
  cases h with
  | absent => exact ht
  | @sign w sign _ hsign _ =>
    rw [List.append_assoc]
    exact (Combinator.render_append hsign (w ++ t)).1

theorem Selector.complexReader_eq_done_iff {relative : Bool} {s rest : Text}
    {selector : Selector} :
    Selector.complexReader arguments relative s = .done selector rest ↔
      ∃ lead s₁ first s₂ steps,
        (if relative then Node.leadReader else pure []) (skipBlank s) = .done lead s₁ ∧
        Node.compoundReader arguments s₁ = .done first s₂ ∧
        many (Node.stepReader arguments) s₂ = .done steps rest ∧
        selector = ⟨lead ++ first ++ steps.flatten⟩ := by
  unfold Selector.complexReader
  cases relative
  all_goals
    simp only [Bool.false_eq_true, if_false, if_true, bind_eq_done_iff, blank_eq_done_iff,
      expecting_eq_done_iff, pure_eq_done_iff]
    constructor
    · intro h
      obtain ⟨_, _, rfl, lead, s₁, hlead, first, s₂, hfirst, steps, _, hsteps, rfl, rfl⟩ := h
      exact ⟨lead, s₁, first, s₂, steps, hlead, hfirst, hsteps, rfl⟩
    · intro h
      obtain ⟨lead, s₁, first, s₂, steps, hlead, hfirst, hsteps, rfl⟩ := h
      exact ⟨(), _, rfl, lead, s₁, hlead, first, s₂, hfirst, steps, rest, hsteps, rfl, rfl⟩

theorem Selector.complexReader_sound (relative : Bool)
    (hargs : Sound (Parenthesised Args) arguments) :
    Sound (IsSelector Args relative) (Selector.complexReader arguments relative) := by
  intro s selector rest h
  rw [Selector.complexReader_eq_done_iff] at h
  obtain ⟨lead, s₁, first, s₂, steps, hlead, hfirst, hsteps, rfl⟩ := h
  obtain ⟨w, hw, hgap⟩ := exists_gap_append_skipBlank s
  obtain ⟨u, rfl, hu⟩ := Node.compoundReader_sound hargs _ _ _ hfirst
  obtain ⟨v, rfl, hv⟩ :=
    many_sound (Node.stepReader_sound hargs) (fun _ _ h => h.ne_nil) _ _ _ hsteps
  obtain ⟨l, hl, hIsLead⟩ :
      ∃ l, skipBlank s = l ++ (u ++ (v ++ rest)) ∧ IsLead relative l lead := by
    cases relative with
    | true => exact Node.leadReader_sound hlead
    | false =>
      simp only [Bool.false_eq_true, if_false, pure_eq_done_iff] at hlead
      obtain ⟨rfl, hmid⟩ := hlead
      exact ⟨[], hmid, .absent⟩
  refine ⟨w ++ l ++ (u ++ v), ?_, ?_⟩
  · rw [hw, hl]
    simp
  · rw [List.append_assoc lead first]
    exact .mk hgap hIsLead (.mk hu hv)

theorem Selector.complexReader_complete (relative : Bool)
    (hsound : Sound (Parenthesised Args) arguments)
    (hcomplete : Complete (Parenthesised Args) (fun _ => True) arguments) :
    Complete (IsSelector Args relative) EndsSelector
      (Selector.complexReader arguments relative) := by
  intro s selector rest h hrest
  obtain @⟨w, l, _, lead, _, hw, hlead, @⟨u, v, nodes, steps, hu, hv⟩⟩ := h
  have hends : EndsCompound (v ++ rest) := by
    cases hv with
    | nil => exact hrest.endsCompound
    | cons hstep _ =>
      rw [List.append_assoc]
      exact hstep.endsCompound _
  have htext : w ++ l ++ (u ++ v) ++ rest = w ++ (l ++ (u ++ (v ++ rest))) := by simp
  have hskip := skipBlank_append hw (hlead.tight_append (hu.tight (v ++ rest)))
  have hleadRead : (if relative then Node.leadReader else pure []) (l ++ (u ++ (v ++ rest))) =
      .done lead (u ++ (v ++ rest)) := by
    cases relative with
    | true => exact Node.leadReader_complete hlead (hu.tight _) (hu.head_not_sign _)
    | false =>
      cases hlead with
      | absent => rfl
      | sign hrel _ _ => cases hrel
  rw [htext, Selector.complexReader_eq_done_iff, hskip]
  exact ⟨lead, _, nodes, v ++ rest, steps, hleadRead,
    Node.compoundReader_complete hsound hcomplete u nodes _ hu hends,
    Node.many_stepReader_complete hsound hcomplete v steps rest hv hrest, by simp⟩

/-- The text ends here, or goes on with what may stand behind an item of a list. -/
def StopsList (s : Text) : Prop := ∀ c, s.head? = some c → c = ',' ∨ c = ')'

theorem StopsList.tight {s : Text} (h : StopsList s) : Tight s := by
  cases s with
  | nil => exact tight_nil
  | cons c s =>
    rcases h c rfl with rfl | rfl
    all_goals exact tight_cons (by decide) (by decide) s

theorem StopsList.endsSelector {w s : Text} (hw : IsGap w) (h : StopsList s) :
    EndsSelector (w ++ s) := by
  intro c hc
  rw [skipBlank_append hw h.tight] at hc
  rcases h c hc with rfl | rfl
  all_goals decide

theorem stopsList_cons {c : Char} (hc : c = ',' ∨ c = ')') (s : Text) : StopsList (c :: s) := by
  intro d hd
  simp only [List.head?_cons, Option.some.injEq] at hd
  subst hd
  exact hc

theorem Selector.separated_complete (relative : Bool)
    (hsound : Sound (Parenthesised Args) arguments)
    (hcomplete : Complete (Parenthesised Args) (fun _ => True) arguments) {u : Text}
    {list : List Selector} (h : IsSelectorList Args relative u list) {rest : Text}
    (hrest : StopsList rest) (hhead : rest.head? ≠ some ',') :
    ∃ mid, separated Token.comma (Selector.complexReader arguments relative) (u ++ rest) =
        .done list mid ∧ skipBlank mid = rest :=
  commaList_complete (Selector.complexReader_sound relative hsound)
    (Selector.complexReader_complete relative hsound hcomplete)
    (fun _ _ hw ht => ht.endsSelector hw) (fun _ ht => ht.tight)
    (fun t => stopsList_cons (.inl rfl) t) h hrest hhead

end

/-! ## The whole grammar -/

theorem Selector.arguments_sound (depth : Nat) :
    Sound (Parenthesised (IsArgumentList depth)) (Selector.arguments depth) := by
  induction depth with
  | zero =>
    intro s list rest h
    rw [Selector.arguments, committed_eq_done_iff] at h
    exact absurd h fail_ne_done
  | succ depth ih =>
    intro s list rest h
    rw [Selector.arguments] at h
    simp only [bind_eq_done_iff, char_eq_done_iff, committed_eq_done_iff, blank_eq_done_iff,
      expecting_eq_done_iff, pure_eq_done_iff] at h
    obtain ⟨_, s₁, rfl, _, mid, hlist, _, _, rfl, _, _, hclose, rfl, rfl⟩ := h
    obtain ⟨u, rfl, hu⟩ := commaList_sound (Selector.complexReader_sound true ih) hlist
    exact ⟨'(' :: u ++ [')'], by rw [hclose]; simp, u, rfl, hu⟩

theorem Selector.arguments_complete (depth : Nat) :
    Complete (Parenthesised (IsArgumentList depth)) (fun _ => True) (Selector.arguments depth) := by
  induction depth with
  | zero =>
    intro s list rest h _
    obtain ⟨u, -, hu⟩ := h
    exact absurd hu id
  | succ depth ih =>
    intro s list rest h _
    obtain ⟨u, rfl, hu⟩ := h
    obtain ⟨mid, hlist, hmid⟩ :=
      Selector.separated_complete true (Selector.arguments_sound depth) ih
      hu (stopsList_cons (.inr rfl) rest) (by simp)
    rw [Selector.arguments]
    simp only [bind_eq_done_iff, char_eq_done_iff, committed_eq_done_iff, blank_eq_done_iff,
      expecting_eq_done_iff, pure_eq_done_iff]
    exact ⟨(), u ++ ')' :: rest, by simp, list, mid, hlist, (), _, hmid, (), rest, rfl, rfl, rfl⟩

theorem Selector.reader_eq_done_iff {s rest : Text} {selector : Selector} :
    Selector.reader s = .done selector rest ↔
      ∃ mid, Selector.outermost s = .done selector mid ∧ skipBlank mid = rest := by
  rw [Selector.reader, then_blank_eq_done_iff]
  constructor
  · intro h
    obtain ⟨_, mid, hread, hrest, rfl⟩ := h
    exact ⟨mid, hread, hrest⟩
  · intro h
    obtain ⟨mid, hread, hrest⟩ := h
    exact ⟨selector, mid, hread, hrest, rfl⟩

theorem Selector.listReader_eq_done_iff {s rest : Text} {list : List Selector} :
    Selector.listReader s = .done list rest ↔
      ∃ mid, separated Token.comma Selector.outermost s = .done list mid ∧
        skipBlank mid = rest := by
  rw [Selector.listReader, then_blank_eq_done_iff]
  constructor
  · intro h
    obtain ⟨_, mid, hread, hrest, rfl⟩ := h
    exact ⟨mid, hread, hrest⟩
  · intro h
    obtain ⟨mid, hread, hrest⟩ := h
    exact ⟨list, mid, hread, hrest, rfl⟩

theorem Selector.parseList_eq_ok_iff {t : Text} {list : List Selector} :
    Selector.parseList t = .ok list ↔ IsSelectorListText t list := by
  have hsound := Selector.arguments_sound maxNesting
  have hcomplete := Selector.arguments_complete maxNesting
  rw [Selector.parseList, Reader.parseAs_eq_ok_iff, Selector.listReader_eq_done_iff]
  constructor
  · intro h
    obtain ⟨mid, hread, hmid⟩ := h
    obtain ⟨u, ht, hu⟩ := commaList_sound (Selector.complexReader_sound false hsound) hread
    rw [hmid, List.append_nil] at ht
    rw [ht]
    exact hu
  · intro h
    have hend : StopsList [] := fun c hc => by cases hc
    obtain ⟨mid, hread, hmid⟩ :=
      Selector.separated_complete false hsound hcomplete h hend (by simp)
    rw [List.append_nil] at hread
    exact ⟨mid, hread, hmid⟩

theorem Selector.isSelectorText_of_parse {t : Text} {selector : Selector}
    (h : Selector.parse t = .ok selector) : IsSelectorText t selector := by
  have hsound := Selector.arguments_sound maxNesting
  rw [Selector.parse, Reader.parseAs_eq_ok_iff, Selector.reader_eq_done_iff] at h
  obtain ⟨mid, hread, hmid⟩ := h
  obtain ⟨u, ht, hu⟩ := Selector.complexReader_sound false hsound t selector mid hread
  obtain ⟨w, hw, hgap⟩ := exists_gap_append_skipBlank mid
  rw [hmid, List.append_nil] at hw
  exact ⟨u, w, by rw [ht, hw], hu, hgap⟩

/-- A word with a gap behind it is read up to that gap, however deep lists may be nested. -/
theorem Selector.complexReader_of_spaced {depth : Nat} {t : Text} {selector : Selector}
    (h : Spaced (IsSelector (IsArgumentList depth) false) t selector) :
    ∃ w, IsGap w ∧
      Selector.complexReader (Selector.arguments depth) false t = .done selector w := by
  obtain ⟨u, w, rfl, hu, hgap⟩ := h
  have hends : EndsSelector (w ++ []) := StopsList.endsSelector hgap fun c hc => by cases hc
  rw [List.append_nil] at hends
  exact ⟨w, hgap, Selector.complexReader_complete false (Selector.arguments_sound depth)
    (Selector.arguments_complete depth) u selector w hu hends⟩

/-- However deep lists may be nested, a text is a word for one selector at most. -/
theorem IsSelector.unique {depth : Nat} {t : Text} {s s' : Selector}
    (h : Spaced (IsSelector (IsArgumentList depth) false) t s)
    (h' : Spaced (IsSelector (IsArgumentList depth) false) t s') : s = s' := by
  obtain ⟨w, -, hread⟩ := Selector.complexReader_of_spaced h
  obtain ⟨w', -, hread'⟩ := Selector.complexReader_of_spaced h'
  rw [hread] at hread'
  exact (Reply.done.inj hread').1

theorem Selector.parse_of_isSelectorText {t : Text} {selector : Selector}
    (h : IsSelectorText t selector) : Selector.parse t = .ok selector := by
  obtain ⟨w, hgap, hread⟩ := Selector.complexReader_of_spaced h
  rw [Selector.parse, Reader.parseAs_eq_ok_iff, Selector.reader_eq_done_iff]
  refine ⟨w, hread, ?_⟩
  have hskip := skipBlank_append hgap tight_nil
  rwa [List.append_nil] at hskip

/-- A text is read as a selector exactly when it is a word of the grammar for it. -/
theorem Selector.parse_eq_ok_iff_isSelectorText (t : Text) (selector : Selector) :
    Selector.parse t = .ok selector ↔ IsSelectorText t selector := by
  constructor
  · intro h
    exact Selector.isSelectorText_of_parse h
  · intro h
    exact Selector.parse_of_isSelectorText h

/-- Only some pseudo-classes take selectors, and the case of their names does not matter: the second
argument would be no selector.  A list of two selectors is not a word for one. -/
theorem Selector.parse_eq_ok_iff_isSelectorText_arguments :
    IsSelectorText "a:NOT(>b):x([) /*,*/".toList
        ⟨[.type ['a'],
          .pseudoClass "NOT".toList (.selectors [⟨[.combinator .child, .type ['b']]⟩]),
          .pseudoClass ['x'] (.verbatim ['['])]⟩ ∧
      ∀ selector, ¬ IsSelectorText "a,b".toList selector := by
  constructor
  · rw [← Selector.parse_eq_ok_iff_isSelectorText, Selector.parse, Reader.parseAs_eq_ok_iff]
    decide +kernel
  · intro selector
    have hread : Selector.reader "a,b".toList = .done ⟨[.type ['a']]⟩ [',', 'b'] := by
      decide +kernel
    rw [← Selector.parse_eq_ok_iff_isSelectorText, Selector.parse, Reader.parseAs_eq_ok_iff, hread]
    simp

end FilterList.Css
