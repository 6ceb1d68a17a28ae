import FilterList.Proofs.Css.Selector.Reading
import FilterList.Proofs.Text.Joining
import Mathlib.Data.List.Forall2
set_option autoImplicit false

/-!
# Lists of selectors are read piece by piece

A list of selectors is read as if somebody had first cut its text into pieces at the commas between
the selectors, and then read each piece as one selector.  Commas in comments, strings and arguments
belong to the pieces: where to cut is not seen from the characters, but whenever all pieces can be
read, so can the text that is joined of them, with the same selectors in the same order.
-/

namespace FilterList.Css

open Text Token

/-! ## Words joined by commas -/

section

variable {α : Type} {L : Text → α → Prop}

/-- Some pieces are words for some values, one by one in order. -/
abbrev Token.WordByWord (L : Text → α → Prop) : List Text → List α → Prop := List.Forall₂ L

theorem Token.CommaList.exists_pieces {u : Text} {as : List α} (h : CommaList L u as) :
    ∃ pieces, u = List.intercalate [','] pieces ∧ pieces ≠ [] ∧ WordByWord L pieces as := by
  induction h with
  | @one u a ha => exact ⟨[u], by simp, by simp, .cons ha .nil⟩
  | @cons u v a as ha _ ih =>
    obtain ⟨pieces, rfl, hne, hpieces⟩ := ih
    refine ⟨u :: pieces, ?_, by simp, .cons ha hpieces⟩
    rw [List.intercalate_cons_of_ne_nil hne]
    simp

theorem Token.WordByWord.commaList {pieces : List Text} {as : List α} (h : WordByWord L pieces as)
    (hne : pieces ≠ []) : CommaList L (List.intercalate [','] pieces) as := by
  induction h with
  | nil => exact absurd rfl hne
  | @cons u a pieces as ha hpieces ih =>
    cases hpieces with
    | nil =>
      rw [List.intercalate_singleton]
      exact .one ha
    | cons hb hothers =>
      rw [List.intercalate_cons_of_ne_nil (by simp), List.append_assoc]
      exact .cons ha (ih (by simp))

end

/-! ## Selectors joined by commas -/

namespace Selector

/-- A text is read as a list of selectors exactly when it is joined by commas of pieces, at least
one, each of which is read as one selector of the list. -/
theorem parseList_eq_ok_iff_pieces {t : Text} {list : List Selector} :
    parseList t = .ok list ↔
      ∃ pieces, t = List.intercalate [','] pieces ∧ pieces ≠ [] ∧
        WordByWord (fun piece selector => parse piece = .ok selector) pieces list := by
  rw [parseList_eq_ok_iff]
  constructor
  · intro h
    obtain ⟨pieces, ht, hne, hpieces⟩ := h.exists_pieces
    exact ⟨pieces, ht, hne, hpieces.imp fun _ _ => parse_of_isSelectorText⟩
  · intro h
    obtain ⟨pieces, rfl, hne, hpieces⟩ := h
    have hwords : WordByWord IsSelectorText pieces list :=
      hpieces.imp fun _ _ => isSelectorText_of_parse
    exact hwords.commaList hne

/-- One selector is read as a list of one, and nothing else is. -/
theorem parse_iff_parseList_singleton {t : Text} {selector : Selector} :
    parse t = .ok selector ↔ parseList t = .ok [selector] := by
  rw [parseList_eq_ok_iff_pieces]
  constructor
  · intro h
    exact ⟨[t], by simp, by simp, .cons h .nil⟩
  · intro h
    obtain ⟨pieces, rfl, -, hpieces⟩ := h
    cases hpieces with
    | cons hpiece hnil =>
      cases hnil
      rwa [List.intercalate_singleton]

theorem parseList_append {a b : Text} {as bs : List Selector} (ha : parseList a = .ok as)
    (hb : parseList b = .ok bs) : parseList (a ++ ',' :: b) = .ok (as ++ bs) := by
  rw [parseList_eq_ok_iff_pieces] at ha hb ⊢
  obtain ⟨pieces, rfl, hne, hpieces⟩ := ha
  obtain ⟨pieces', rfl, hne', hpieces'⟩ := hb
  refine ⟨pieces ++ pieces', ?_, by simp [hne], List.rel_append hpieces hpieces'⟩
  rw [intercalate_append hne hne']
  simp

/-- Lists of selectors compose: a list of one is one selector, and two lists with a comma between
them are read as the one followed by the other. -/
theorem parseList_singleton_and_append :
    (∀ (t : Text) (selector : Selector),
      parse t = .ok selector ↔ parseList t = .ok [selector]) ∧
    ∀ (a b : Text) (as bs : List Selector), parseList a = .ok as → parseList b = .ok bs →
      parseList (a ++ ',' :: b) = .ok (as ++ bs) := by
  constructor
  · intro t selector
    exact parse_iff_parseList_singleton
  · intro a b as bs ha hb
    exact parseList_append ha hb

/-- Of the four commas one is in a comment, one in an argument and one in a string; the blank before
the one that separates is no descendant combinator. -/
theorem parseList_singleton_and_append_commas :
    let a := "p/*,*/ ".toList
    let b := ":not(i, > b)[x=',']".toList
    let first : Selector := ⟨[.type ['p']]⟩
    let second : Selector :=
      ⟨[.pseudoClass "not".toList
          (.selectors [⟨[.type ['i']]⟩, ⟨[.combinator .child, .type ['b']]⟩]),
        .attr (.ofValue ['x'] [','])]⟩
    parse a = .ok first ∧ parse b = .ok second ∧
      parseList (a ++ ',' :: b) = .ok [first, second] := by
  intro a b first second
  obtain ⟨hsingle, happend⟩ := parseList_singleton_and_append
  have hfirst : parse a = .ok first := Reader.parseAs_eq_ok_iff.mpr (by decide +kernel)
  have hsecond : parse b = .ok second := Reader.parseAs_eq_ok_iff.mpr (by decide +kernel)
  exact ⟨hfirst, hsecond,
    happend a b [first] [second] ((hsingle a first).mp hfirst) ((hsingle b second).mp hsecond)⟩

end Selector

end FilterList.Css
