import FilterList.Proofs.Css.Selector.Reading
set_option autoImplicit false

/-!
# Attribute values in quotes

A value can be put between either kind of quotes.  Whatever stands between them, backslashes have to
be escaped, and so have quotes of the kind that is around the value; quotes of the other kind may be
escaped or not.  All these texts are read as one and the same attribute selector, the one that is
made of the value itself.
-/

namespace FilterList.Css

open Token Text

namespace Attribute

/-! ## Escaping -/

/-- The value with a backslash before each character that `picks` picks, by its place and by what it
is. -/
def escaped (picks : Nat → Char → Bool) : Text → Text
  | [] => []
  | c :: rest =>
    let rest' := escaped (fun place => picks (place + 1)) rest
    if picks 0 c then '\\' :: c :: rest' else c :: rest'

/-- The text `[name=value]`, with the value between two of the given quotes. -/
def quotedWith (quote : Char) (picks : Nat → Char → Bool) (name value : Text) : Text :=
  '[' :: name ++ ['=', quote] ++ escaped picks value ++ [quote, ']']

/-- What is picked makes a value safe between two of the given quotes, and leaves it the value that
it was. -/
structure Escapes (quote : Char) (picks : Nat → Char → Bool) : Prop where
  backslash : ∀ place, picks place '\\' = true
  closing : ∀ place, picks place quote = true
  only : ∀ place c, picks place c = true → c = '\\' ∨ isQuote c = true

/-- What is picked between single quotes: these quotes, and backslashes. -/
def picksSingle (_place : Nat) (c : Char) : Bool := c == '\'' || c == '\\'

/-- What is picked between double quotes: these quotes and backslashes, and single quotes at some
places. -/
def picksDouble (places : Nat → Bool) (place : Nat) (c : Char) : Bool :=
  c == '"' || c == '\\' || (c == '\'' && places place)

theorem escapes_single : Escapes '\'' picksSingle where
  backslash _ := rfl
  closing _ := rfl
  only _ c h := by
    simp only [picksSingle, Bool.or_eq_true, beq_iff_eq] at h
    rcases h with rfl | rfl
    · exact .inr rfl
    · exact .inl rfl

theorem escapes_double (places : Nat → Bool) : Escapes '"' (picksDouble places) where
  backslash _ := rfl
  closing _ := rfl
  only _ c h := by
    simp only [picksDouble, Bool.or_eq_true, Bool.and_eq_true, beq_iff_eq] at h
    rcases h with (rfl | rfl) | ⟨rfl, -⟩
    · exact .inr rfl
    · exact .inl rfl
    · exact .inr rfl

section

variable {quote : Char} {picks : Nat → Char → Bool}

theorem Escapes.tail (h : Escapes quote picks) : Escapes quote fun place => picks (place + 1) where
  backslash place := h.backslash (place + 1)
  closing place := h.closing (place + 1)
  only place := h.only (place + 1)

/-- Between either quotes, the escaped value stands for the value as it is kept. -/
theorem Escapes.quotedAs (h : Escapes quote picks) (value : Text) :
    QuotedAs quote (escaped picks value) (Attribute.quote value) := by
  induction value generalizing picks with
  | nil => exact .nil
  | cons c rest ih =>
    have hrest := ih h.tail
    rw [escaped, Attribute.quote]
    by_cases hpick : picks 0 c = true
    · rw [if_pos hpick]
      by_cases hapostrophe : c = '\''
      · subst hapostrophe
        exact .escapedApostrophe hrest
      · have hkept : c = '"' ∨ c = '\\' := by
          rcases h.only 0 c hpick with rfl | hq
          · exact .inr rfl
          · simp only [isQuote, Bool.or_eq_true, beq_iff_eq] at hq
            exact .inl (hq.resolve_right hapostrophe)
        rw [if_pos hkept]
        exact .escape hapostrophe hrest
    · rw [if_neg hpick]
      have hslash : c ≠ '\\' := fun hc => hpick (hc ▸ h.backslash 0)
      have hquote : c ≠ quote := fun hc => hpick (hc ▸ h.closing 0)
      by_cases hdouble : c = '"'
      · subst hdouble
        exact .doubleQuote hquote.symm hrest
      · rw [if_neg (not_or.mpr ⟨hdouble, hslash⟩)]
        exact .char hquote hdouble hslash hrest

/-- The attribute selector is read from its value in quotes, whatever is escaped there. -/
theorem Escapes.parse_quotedWith (h : Escapes quote picks) (hquote : isQuote quote = true)
    {name : Text} (hname : IsName name) (value : Text) :
    Selector.parse (quotedWith quote picks name value) =
      .ok ⟨[.attr (ofValue name value)]⟩ := by
  have hvalue :
      IsValue (quote :: escaped picks value ++ [quote]) (.string (Attribute.quote value)) :=
    .string ⟨quote, _, hquote, rfl, h.quotedAs value⟩
  have hattribute : IsAttribute ([] ++ name ++ [] ++ AttributeOperator.equals.render ++ [] ++
      (quote :: escaped picks value ++ [quote]) ++ [] ++ [] ++ [']']) (ofValue name value) :=
    .compared .nil hname .nil .nil hvalue .absent .nil
  have htext : '[' :: ([] ++ name ++ [] ++ AttributeOperator.equals.render ++ [] ++
      (quote :: escaped picks value ++ [quote]) ++ [] ++ [] ++ [']']) =
        quotedWith quote picks name value := by
    simp [quotedWith, AttributeOperator.render]
  have hcompound : IsCompound (IsArgumentList maxNesting) (quotedWith quote picks name value ++ [])
      [.attr (ofValue name value)] :=
    .untyped (.cons (htext ▸ .attr hattribute) .nil) (by simp)
  rw [List.append_nil] at hcompound
  have hselector : IsSelector (IsArgumentList maxNesting) false
      ([] ++ [] ++ (quotedWith quote picks name value ++ []))
      ⟨[] ++ [.attr (ofValue name value)]⟩ :=
    .mk .nil .absent (.mk hcompound .nil)
  exact Selector.parse_of_isSelectorText ⟨_, [], by simp, hselector, .nil⟩

end

/-! ## The canonical text -/

theorem quote_eq_escaped (value : Text) :
    Attribute.quote value = escaped (picksDouble fun _ => false) value := by
  induction value with
  | nil => rfl
  | cons c rest ih =>
    have htail : (fun place => picksDouble (fun _ => false) (place + 1)) =
        picksDouble fun _ => false := rfl
    rw [Attribute.quote, escaped, htail, ← ih]
    simp [picksDouble]

/-- The canonical text has double quotes, and escapes no single quote in them. -/
theorem render_ofValue (name value : Text) :
    (ofValue name value).render = quotedWith '"' (picksDouble fun _ => false) name value := by
  simp [ofValue, render, AttributeMatcher.render, AttributeOperator.render, AttributeValue.render,
    renderFlags, quotedWith, quote_eq_escaped]

theorem quote_ne_nil (c : Char) (rest : Text) : Attribute.quote (c :: rest) ≠ [] := by
  rw [Attribute.quote]
  split
  all_goals exact List.cons_ne_nil _ _

theorem quote_cons_inj {c d : Char} {rest rest' : Text}
    (h : Attribute.quote (c :: rest) = Attribute.quote (d :: rest')) :
    c = d ∧ Attribute.quote rest = Attribute.quote rest' := by
  rw [Attribute.quote, Attribute.quote] at h
  by_cases hc : c = '"' ∨ c = '\\'
  · by_cases hd : d = '"' ∨ d = '\\'
    · simpa [hc, hd] using h
    · -- what begins with a backslash has an escape there, and `d` is none
      rw [if_pos hc, if_neg hd] at h
      exact absurd (.inr (List.cons.inj h).1.symm) hd
  · by_cases hd : d = '"' ∨ d = '\\'
    · rw [if_neg hc, if_pos hd] at h
      exact absurd (.inr (List.cons.inj h).1) hc
    · simpa [hc, hd] using h

/-- No two values are kept alike. -/
theorem quote_injective {value value' : Text}
    (h : Attribute.quote value = Attribute.quote value') : value = value' := by
  induction value generalizing value' with
  | nil =>
    cases value' with
    | nil => rfl
    | cons d rest' => exact absurd h.symm (quote_ne_nil d rest')
  | cons c rest ih =>
    cases value' with
    | nil => exact absurd h (quote_ne_nil c rest)
    | cons d rest' =>
      obtain ⟨rfl, hrest⟩ := quote_cons_inj h
      rw [ih hrest]

theorem ofValue_injective {name value value' : Text}
    (h : ofValue name value = ofValue name value') :
    value = value' := by
  simp only [ofValue, mk.injEq, Option.some.injEq, AttributeMatcher.mk.injEq,
    AttributeValue.string.injEq, true_and, and_true] at h
  exact quote_injective h

/-- An attribute selector made of a value is read from its canonical text, from the value between
single quotes, and from the value between double quotes wherever single quotes are escaped in it;
and it tells which value it was made of. -/
theorem parse_quotedWith_ofValue (name value : Text) (hname : Token.name name = .done name []) :
    Selector.parse (ofValue name value).render = .ok ⟨[.attr (ofValue name value)]⟩ ∧
      Selector.parse (quotedWith '\'' picksSingle name value) =
        .ok ⟨[.attr (ofValue name value)]⟩ ∧
      (∀ places, Selector.parse (quotedWith '"' (picksDouble places) name value) =
        .ok ⟨[.attr (ofValue name value)]⟩) ∧
      ∀ value', ofValue name value = ofValue name value' → value = value' := by
  obtain ⟨-, hn, -⟩ := name_sound hname
  have hdouble : ∀ places, Selector.parse (quotedWith '"' (picksDouble places) name value) =
      .ok ⟨[.attr (ofValue name value)]⟩ :=
    fun places => (escapes_double places).parse_quotedWith rfl hn value
  refine ⟨?canonical, escapes_single.parse_quotedWith rfl hn value, hdouble,
    fun _ => ofValue_injective⟩
  case canonical =>
    rw [render_ofValue]
    exact hdouble _

/-- The value has quotes of both kinds, a backslash and a bracket, and the name has an escape. -/
theorem parse_quotedWith_ofValue_escapes :
    let name := "b\\ c".toList
    let value := "'\"\\]'".toList
    Token.name name = .done name [] ∧
      Selector.parse "[b\\ c=\"'\\\"\\\\]'\"]".toList = .ok ⟨[.attr (ofValue name value)]⟩ ∧
      Selector.parse "[b\\ c='\\'\"\\\\]\\'']".toList = .ok ⟨[.attr (ofValue name value)]⟩ ∧
      Selector.parse "[b\\ c=\"\\'\\\"\\\\]'\"]".toList = .ok ⟨[.attr (ofValue name value)]⟩ := by
  intro name value
  have hname : Token.name name = .done name [] := by decide
  obtain ⟨hcanonical, hsingle, hdouble, -⟩ := parse_quotedWith_ofValue name value hname
  exact ⟨hname, hcanonical, hsingle, hdouble (· == 0)⟩

end Attribute

end FilterList.Css
