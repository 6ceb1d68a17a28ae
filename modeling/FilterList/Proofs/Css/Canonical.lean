import FilterList.Proofs.Css.Token
import FilterList.Proofs.Text.Respelling
set_option autoImplicit false

/-!
# Canonical words

A value may have many words in a language; the writer gives one of them.  `Canonical` says that
the written word is a word for the value again, and that it respells any other word for it.  It
carries over from items to rows and to lists, and holds of names and of strings.
-/

namespace FilterList.Css

open Token Reader Text

/-- The written form of a value is a word for it, and a respelling of every other word for it. -/
def Canonical {α : Type} (L : Text → α → Prop) (render : α → Text) : Prop :=
  ∀ u a, L u a → L (render a) a ∧ Respelled u (render a)

/-! ## Rows and lists -/

section

variable {α : Type} {L : Text → α → Prop} {render : α → Text}

theorem Reader.Row.respelled (h : ∀ u a, L u a → Respelled u (render a)) {u : Text}
    {as : List α} (hu : Row L u as) : Respelled u (as.map render).flatten := by
  induction hu with
  | nil => exact .nil rfl
  | cons ha _ ih => exact (h _ _ ha).append ih

theorem Canonical.row (h : Canonical L render) :
    Canonical (Row L) fun as => (as.map render).flatten := by
  intro u as hu
  refine ⟨?_, hu.respelled fun u a ha => (h u a ha).2⟩
  induction hu with
  | nil => exact .nil
  | cons ha _ ih => exact .cons (h _ _ ha).1 ih

theorem Token.Spaced.respelled (h : ∀ u a, L u a → Respelled u (render a)) {s : Text} {a : α}
    (hs : Spaced L s a) : Respelled s (render a) := by
  obtain ⟨u, w, rfl, hu, hw⟩ := hs
  exact (h u a hu).append_gap (hw.endsEscaping rfl)

theorem Canonical.spaced (h : Canonical L render) : Canonical (Spaced L) render := by
  intro s a hs
  refine ⟨?_, hs.respelled fun u a ha => (h u a ha).2⟩
  obtain ⟨u, -, -, hu, -⟩ := hs
  exact ⟨render a, [], by simp, (h u a hu).1, .nil⟩

theorem Token.CommaList.exists_cons {u : Text} {as : List α} (h : CommaList L u as) :
    ∃ s b bs, as = b :: bs ∧ L s b := by
  cases h with
  | one ha => exact ⟨_, _, _, rfl, ha⟩
  | cons ha _ => exact ⟨_, _, _, rfl, ha⟩

theorem intercalate_comma (pad : Text) (a b : Text) (bs : List Text) :
    List.intercalate (',' :: pad) (a :: b :: bs) =
      a ++ ',' :: (pad ++ List.intercalate (',' :: pad) (b :: bs)) := by
  simp [List.intercalate_cons_cons]

/-- A list is written with a comma and some blanks between any two items. -/
theorem Token.CommaList.respelled (h : ∀ u a, L u a → Respelled u (render a)) {pad : Text}
    (hpad : ∀ s a, L s a → ∀ u v, Respelled u (render a ++ v) →
      Respelled u (pad ++ (render a ++ v)))
    {u : Text} {as : List α} (hu : CommaList L u as) :
    Respelled u (List.intercalate (',' :: pad) (as.map render)) := by
  induction hu with
  | one ha => simpa using h _ _ ha
  | @cons u v a as ha hv ih =>
    obtain ⟨s, b, bs, rfl, hb⟩ := hv.exists_cons
    rw [List.map_cons, List.map_cons, intercalate_comma]
    refine (h _ _ ha).append (Respelled.cons rfl ?_)
    obtain ⟨w, hw⟩ : ∃ w, List.intercalate (',' :: pad) ((b :: bs).map render) = render b ++ w := by
      cases bs with
      | nil => exact ⟨[], by simp⟩
      | cons c cs => exact ⟨_, by rw [List.map_cons, List.map_cons, intercalate_comma]⟩
    rw [List.map_cons] at hw
    rw [List.map_cons, hw] at ih
    rw [hw]
    exact hpad s b hb v w ih

theorem Token.CommaList.pad_append {pad : Text} (hpad : ∀ u a, L u a → L (pad ++ u) a) {u : Text}
    {as : List α} (h : CommaList L u as) : CommaList L (pad ++ u) as := by
  cases h with
  | one hu => exact .one (hpad _ _ hu)
  | cons hu hv =>
    rw [← List.append_assoc]
    exact .cons (hpad _ _ hu) hv

/-- The blanks behind a comma count as the gap before the item that follows. -/
theorem Canonical.commaList (h : Canonical L render) (pad : Text)
    (hword : ∀ u a, L u a → L (pad ++ u) a)
    (hspell : ∀ s a, L s a → ∀ u v, Respelled u (render a ++ v) →
      Respelled u (pad ++ (render a ++ v))) :
    Canonical (CommaList L) fun as => List.intercalate (',' :: pad) (as.map render) := by
  intro u as hu
  refine ⟨?_, hu.respelled (fun u a ha => (h u a ha).2) hspell⟩
  show CommaList L (List.intercalate (',' :: pad) (as.map render)) as
  induction hu with
  | one ha => simpa using CommaList.one (h _ _ ha).1
  | @cons u v a as ha hv ih =>
    obtain ⟨-, b, bs, rfl, -⟩ := hv.exists_cons
    rw [List.map_cons, List.map_cons, intercalate_comma]
    exact .cons (h _ _ ha).1 (ih.pad_append hword)

end

/-! ## Names and strings -/

theorem Token.NameChars.pass {n : Text} (h : NameChars n) {σ : Type} {step : σ → Char → Option σ}
    (hstep : ∀ c, isNameChar c = true → Inert step c) (st : σ) :
    Text.pass step st none n = some (st, none) := by
  induction h with
  | nil => rw [pass_nil]
  | @char c s hc _ ih =>
    rw [pass_cons (ne_backslash_of_isNameChar hc), (hstep c hc).advance st Quotation.proper_none]
    exact ih
  | escape c _ ih => rw [pass_escape, ih]

theorem Token.NameChars.tail {n : Text} (h : NameChars n) :
    ∀ m, n = m ++ [' '] → Text.endsEscaping m = true := by
  induction h with
  | nil => simp
  | @char c s hc _ ih =>
    intro m hm
    cases m with
    | nil =>
      rw [List.nil_append] at hm
      rw [(List.cons.inj hm).1] at hc
      exact absurd hc (by decide)
    | cons d m =>
      obtain ⟨rfl, hs⟩ := List.cons.inj hm
      rw [endsEscaping_cons_of_ne (ne_backslash_of_isNameChar hc)]
      exact ih m hs
  | @escape c s _ ih =>
    intro m hm
    cases m with
    | nil => simp at hm
    | cons d m =>
      obtain ⟨rfl, hs⟩ := List.cons.inj hm
      cases m with
      | nil => rfl
      | cons e m =>
        rw [endsEscaping_escape]
        exact ih m (List.cons.inj hs).2

theorem Token.IsName.respelled {n : Text} (h : IsName n) : Respelled n n where
  source_even := h.1.endsEscaping
  closes := h.1.pass (fun _ hc => ⟨isQuote_of_isNameChar hc, ne_backslash_of_isNameChar hc,
    fun _ => rfl⟩) ()
  even := h.1.endsEscaping
  tail := h.1.tail
  count_le _ _ _ _ := Nat.le_refl _

/-- What a string stands for is written between double quotes as it is. -/
theorem Token.QuotedAs.canonical {quote : Char} {body content : Text}
    (h : QuotedAs quote body content) : QuotedAs '"' content content := by
  induction h with
  | nil => exact .nil
  | escapedApostrophe _ ih => exact .char (by decide) (by decide) (by decide) ih
  | escape hc _ ih => exact .escape hc ih
  | doubleQuote _ _ ih => exact .escape (by decide) ih
  | char _ hd hb _ ih => exact .char hd hd hb ih

theorem Token.QuotedAs.inQuotes {quote : Char} {body content : Text}
    (h : QuotedAs quote body content) : InQuotes '"' content := by
  induction h with
  | nil => exact .nil
  | escapedApostrophe _ ih => exact .char (by decide) (by decide) ih
  | escape _ _ ih => exact .escape _ ih
  | doubleQuote _ _ ih => exact .escape _ ih
  | char _ hd hb _ ih => exact .char hd hb ih

theorem Token.QuotedAs.count_le {quote : Char} {body content : Text}
    (h : QuotedAs quote body content) {c : Char} (hq : c ≠ '"') (hb : c ≠ '\\') :
    content.count c ≤ body.count c := by
  have hq' : '"' ≠ c := fun e => hq e.symm
  have hb' : '\\' ≠ c := fun e => hb e.symm
  induction h with
  | nil => exact Nat.le_refl _
  | escapedApostrophe _ ih =>
    rw [List.count_cons_of_ne hb', List.count_cons, List.count_cons]
    omega
  | escape _ _ ih =>
    rw [List.count_cons_of_ne hb', List.count_cons_of_ne hb', List.count_cons, List.count_cons]
    omega
  | doubleQuote _ _ ih =>
    rw [List.count_cons_of_ne hb', List.count_cons_of_ne hq', List.count_cons_of_ne hq']
    exact ih
  | char _ _ _ _ ih =>
    rw [List.count_cons, List.count_cons]
    omega

theorem Token.IsString.canonical : Canonical IsString fun content => '"' :: content ++ ['"'] := by
  intro u content h
  obtain ⟨quote, body, hquote, rfl, hbody⟩ := h
  refine ⟨⟨'"', content, rfl, rfl, hbody.canonical⟩,
    Respelled.of_concat ?_ ?_ ?_ (by decide) ?_⟩
  · exact endsEscaping_concat_of_ne (ne_backslash_of_isQuote hquote) _
  · rw [ClosesQuotations, pass_quotation rfl hbody.inQuotes, pass_nil]
  · exact endsEscaping_quotation rfl hbody.inQuotes []
  · intro c _ hq hb
    have := hbody.count_le hq hb
    simp only [List.cons_append, List.count_cons, List.count_append, List.count_nil, beq_iff_eq]
    rw [if_neg (fun e => hq e.symm)]
    omega

end FilterList.Css
