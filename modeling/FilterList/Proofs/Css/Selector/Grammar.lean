import FilterList.Css.Selector.Reader
import FilterList.Css.Selector.Writer
import FilterList.Proofs.Css.Token
set_option autoImplicit false

/-!
# The grammar of selectors

Each production is a language: a relation between a piece of text and the node, the nodes or the
selector that it stands for.  The productions that can hold a nested list of selectors take the
language of such lists as a parameter, and `IsArgumentList` ties the knot by recursion on how deep
lists may still be nested.

The productions say what may be written and say nothing about how it is read: no word is required
to be the longest one, and no choice is made before another.
-/

namespace FilterList.Css

open Token

/-! ## Attributes -/

/-- A string in quotes, or a name. -/
inductive IsValue : Text → AttributeValue → Prop
  | string {s content : Text} : IsString s content → IsValue s (.string content)
  | identifier {n : Text} : IsName n → IsValue n (.identifier n)

/-- The flags behind a value, with the gap before them.  Something has to stand between a name and
its flags. -/
inductive IsFlags (value : AttributeValue) : Text → Option Text → Prop
  | absent : IsFlags value [] none
  | present {w n : Text} : IsGap w → ((∃ m, value = .identifier m) → w ≠ []) → IsName n →
      IsFlags value (w ++ n) (some n)

/-- An attribute selector behind its opening bracket. -/
inductive IsAttribute : Text → Attribute → Prop
  | named {w n w' : Text} : IsGap w → IsName n → IsGap w' →
      IsAttribute (w ++ n ++ w' ++ [']']) ⟨n, none, none⟩
  | compared {w n w' w₁ v f w₂ : Text} {operator : AttributeOperator} {value : AttributeValue}
      {flags : Option Text} : IsGap w → IsName n → IsGap w' → IsGap w₁ → IsValue v value →
      IsFlags value f flags → IsGap w₂ →
      IsAttribute (w ++ n ++ w' ++ operator.render ++ w₁ ++ v ++ f ++ w₂ ++ [']'])
        ⟨n, some ⟨operator, value⟩, flags⟩

/-! ## Compounds -/

/-- `*` or the name of an element. -/
inductive IsType : Text → Node → Prop
  | any : IsType ['*'] (.type ['*'])
  | named {n : Text} : IsName n → IsType n (.type n)

/-- The name, in whatever case it is written, is that of a pseudo-class whose argument is a list of
selectors. -/
def NamesSelectors (n : Text) : Prop := n.map Char.toLower ∈ selectorListNames

instance (n : Text) : Decidable (NamesSelectors n) := inferInstanceAs (Decidable (_ ∈ _))

/-- A simple selector other than the name of an element.  `Args` is the language of nested lists of
selectors, without their parentheses. -/
inductive IsSubclass (Args : Text → List Selector → Prop) : Text → Node → Prop
  | id {n : Text} : IsName n → IsSubclass Args ('#' :: n) (.id n)
  | className {n : Text} : IsName n → IsSubclass Args ('.' :: n) (.className n)
  | attr {u : Text} {a : Attribute} : IsAttribute u a → IsSubclass Args ('[' :: u) (.attr a)
  | pseudoElement {n : Text} : IsName n →
      IsSubclass Args (':' :: ':' :: n) (.pseudoElement ⟨n, none⟩)
  | pseudoElementOf {n r : Text} : IsName n → Text.Balanced r →
      IsSubclass Args (':' :: ':' :: n ++ '(' :: r ++ [')']) (.pseudoElement ⟨n, some r⟩)
  | pseudoClass {n : Text} : IsName n → IsSubclass Args (':' :: n) (.pseudoClass n .absent)
  | selectors {n u : Text} {list : List Selector} : IsName n → NamesSelectors n → Args u list →
      IsSubclass Args (':' :: n ++ '(' :: u ++ [')']) (.pseudoClass n (.selectors list))
  | verbatim {n r : Text} : IsName n → ¬ NamesSelectors n → Text.Balanced r →
      IsSubclass Args (':' :: n ++ '(' :: r ++ [')']) (.pseudoClass n (.verbatim r))

/-- A compound: simple selectors without a gap, at most the first of them a type. -/
inductive IsCompound (Args : Text → List Selector → Prop) : Text → List Node → Prop
  | typed {t u : Text} {node : Node} {nodes : List Node} : IsType t node →
      Reader.Row (IsSubclass Args) u nodes → IsCompound Args (t ++ u) (node :: nodes)
  | untyped {u : Text} {nodes : List Node} : Reader.Row (IsSubclass Args) u nodes → nodes ≠ [] →
      IsCompound Args u nodes

/-! ## Selectors -/

/-- A combinator with the compound behind it. -/
inductive IsStep (Args : Text → List Selector → Prop) : Text → List Node → Prop
  | sign {w w' u : Text} {sign : Combinator} {nodes : List Node} : IsGap w → sign ≠ .descendant →
      IsGap w' → IsCompound Args u nodes →
      IsStep Args (w ++ sign.render ++ w' ++ u) (.combinator sign :: nodes)
  | descendant {w u : Text} {nodes : List Node} : IsGap w → w ≠ [] → IsCompound Args u nodes →
      IsStep Args (w ++ u) (.combinator .descendant :: nodes)

/-- Compounds with combinators between them. -/
inductive IsComplex (Args : Text → List Selector → Prop) : Text → List Node → Prop
  | mk {u v : Text} {nodes : List Node} {steps : List (List Node)} : IsCompound Args u nodes →
      Reader.Row (IsStep Args) v steps → IsComplex Args (u ++ v) (nodes ++ steps.flatten)

/-- The combinator at the front of a relative selector, if there is one, with the gap behind it. -/
inductive IsLead (relative : Bool) : Text → List Node → Prop
  | absent : IsLead relative [] []
  | sign {w : Text} {sign : Combinator} : relative = true → sign ≠ .descendant → IsGap w →
      IsLead relative (sign.render ++ w) [.combinator sign]

/-- A selector with the gap before it. -/
inductive IsSelector (Args : Text → List Selector → Prop) (relative : Bool) :
    Text → Selector → Prop
  | mk {w l u : Text} {lead nodes : List Node} : IsGap w → IsLead relative l lead →
      IsComplex Args u nodes → IsSelector Args relative (w ++ l ++ u) ⟨lead ++ nodes⟩

/-- A list of selectors with gaps around each. -/
def IsSelectorList (Args : Text → List Selector → Prop) (relative : Bool) :
    Text → List Selector → Prop :=
  CommaList (Spaced (IsSelector Args relative))

/-- A list of relative selectors in which such lists are nested less than `depth` deep. -/
def IsArgumentList : Nat → Text → List Selector → Prop
  | 0 => fun _ _ => False
  | depth + 1 => IsSelectorList (IsArgumentList depth) true

/-- A whole text that is one selector. -/
def IsSelectorText : Text → Selector → Prop :=
  Spaced (IsSelector (IsArgumentList maxNesting) false)

/-- A whole text that is a list of selectors. -/
def IsSelectorListText : Text → List Selector → Prop :=
  IsSelectorList (IsArgumentList maxNesting) false

/-! ## What the words begin with

The characters at the front of a word decide how it is read, so they are what may not stand behind
a word that is to end before them. -/

/-- The character can go on with a simple selector that has begun. -/
def extendsNode (c : Char) : Bool := isNameChar c || c == '\\' || c == '('

/-- The character begins a simple selector other than a type. -/
def opensSubclass (c : Char) : Bool := c == '#' || c == '.' || c == '[' || c == ':'

/-- The character begins a type. -/
def opensType (c : Char) : Bool := isNameChar c || c == '\\' || c == '*'

/-- The character is the sign of a combinator. -/
def isSign (c : Char) : Bool := c == '>' || c == '+' || c == '~'

section

variable {Args : Text → List Selector → Prop}

theorem IsSubclass.exists_cons {u : Text} {node : Node} (h : IsSubclass Args u node) :
    ∃ c v, u = c :: v ∧ opensSubclass c = true := by
  cases h <;> exact ⟨_, _, rfl, by decide⟩

theorem IsSubclass.ne_nil {u : Text} {node : Node} (h : IsSubclass Args u node) : u ≠ [] := by
  obtain ⟨c, v, rfl, -⟩ := h.exists_cons
  simp

theorem IsType.exists_cons {u : Text} {node : Node} (h : IsType u node) :
    ∃ c v, u = c :: v ∧ opensType c = true := by
  cases h with
  | any => exact ⟨'*', [], rfl, by decide⟩
  | named hn =>
    obtain ⟨c, m, rfl, hc⟩ := hn.exists_cons
    refine ⟨c, m, rfl, ?_⟩
    rcases hc with hc | rfl
    · simp [opensType, hc]
    · decide

theorem IsCompound.exists_cons {u : Text} {nodes : List Node} (h : IsCompound Args u nodes) :
    ∃ c v, u = c :: v ∧ (opensType c = true ∨ opensSubclass c = true) := by
  cases h with
  | typed ht _ =>
    obtain ⟨c, v, rfl, hc⟩ := ht.exists_cons
    exact ⟨c, _, rfl, .inl hc⟩
  | untyped hu hne =>
    cases hu with
    | nil => exact absurd rfl hne
    | cons hs _ =>
      obtain ⟨c, v, rfl, hc⟩ := hs.exists_cons
      exact ⟨c, _, rfl, .inr hc⟩

end

/-! ## More depth allows more words -/

section

variable {Args Args' : Text → List Selector → Prop}
  (hargs : ∀ u list, Args u list → Args' u list)

include hargs

theorem IsSubclass.mono {u : Text} {node : Node} (h : IsSubclass Args u node) :
    IsSubclass Args' u node := by
  cases h with
  | id hn => exact .id hn
  | className hn => exact .className hn
  | attr ha => exact .attr ha
  | pseudoElement hn => exact .pseudoElement hn
  | pseudoElementOf hn hr => exact .pseudoElementOf hn hr
  | pseudoClass hn => exact .pseudoClass hn
  | selectors hn ht hu => exact .selectors hn ht (hargs _ _ hu)
  | verbatim hn ht hr => exact .verbatim hn ht hr

theorem IsCompound.mono {u : Text} {nodes : List Node} (h : IsCompound Args u nodes) :
    IsCompound Args' u nodes := by
  cases h with
  | typed ht hu => exact .typed ht (hu.mono fun _ _ => IsSubclass.mono hargs)
  | untyped hu hne => exact .untyped (hu.mono fun _ _ => IsSubclass.mono hargs) hne

theorem IsStep.mono {u : Text} {nodes : List Node} (h : IsStep Args u nodes) :
    IsStep Args' u nodes := by
  cases h with
  | sign hw hsign hw' hu => exact .sign hw hsign hw' (IsCompound.mono hargs hu)
  | descendant hw hne hu => exact .descendant hw hne (IsCompound.mono hargs hu)

theorem IsSelector.mono {relative : Bool} {u : Text} {selector : Selector}
    (h : IsSelector Args relative u selector) : IsSelector Args' relative u selector := by
  obtain ⟨hw, hlead, hu, hv⟩ := h
  exact .mk hw hlead (.mk (IsCompound.mono hargs hu) (hv.mono fun _ _ => IsStep.mono hargs))

end

/-- Where lists may be nested deeper, every list is still one. -/
theorem IsArgumentList.mono {depth depth' : Nat} (hle : depth ≤ depth') {u : Text}
    {list : List Selector} (h : IsArgumentList depth u list) : IsArgumentList depth' u list := by
  induction depth generalizing depth' u list with
  | zero => exact absurd h id
  | succ depth ih =>
    obtain ⟨depth', rfl⟩ := Nat.exists_eq_add_of_le' (Nat.lt_of_lt_of_le depth.succ_pos hle)
    have hargs : ∀ u list, IsArgumentList depth u list → IsArgumentList depth' u list :=
      fun _ _ hu => ih (by omega) hu
    exact CommaList.mono (fun _ _ => Spaced.mono fun _ _ => IsSelector.mono hargs) h

/-- Where lists may be nested deeper, a selector with a gap behind it is still one. -/
theorem Token.Spaced.mono_depth {depth depth' : Nat} (hle : depth ≤ depth') {relative : Bool}
    {t : Text} {selector : Selector}
    (h : Spaced (IsSelector (IsArgumentList depth) relative) t selector) :
    Spaced (IsSelector (IsArgumentList depth') relative) t selector :=
  h.mono fun _ _ => IsSelector.mono fun _ _ hu => IsArgumentList.mono hle hu

end FilterList.Css
