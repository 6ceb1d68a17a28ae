import FilterList.Text.Basic
set_option autoImplicit false

/-!
# Bare characters

In a style sheet a character counts only where it is *bare*: not escaped by a backslash, not
inside a quotation and not itself a quote.  A backslash takes the next character with it, inside
a quotation too, and a quotation ends at the quote that opened it.

`breakBare` is the one scanner for all of this.  It feeds the bare characters to a step function,
which carries a state (a nesting depth, say) and refuses the character at which to stop.
-/

namespace FilterList.Text

/-- The quote that opened the quotation a place lies in, if it lies in one. -/
abbrev Quotation := Option Char

/-- The characters that open a quotation. -/
def isQuote (c : Char) : Bool := c == '"' || c == '\''

namespace Quotation

/-- The quotation after the unescaped character `c`. -/
def next (q : Quotation) (c : Char) : Quotation :=
  match q with
  | some opener => if c = opener then none else some opener
  | none => if isQuote c then some c else none

/-- An unescaped character counts: it is in no quotation, and is neither a quote nor a
backslash. -/
def bare (q : Quotation) (c : Char) : Bool := q.isNone && !isQuote c && c != '\\'

end Quotation

/-- Breaks the text before the first bare character that `step` refuses, starting in the state
`st` and the quotation `q`.  The second part is empty if no character is refused. -/
def breakBare {σ : Type} (step : σ → Char → Option σ) : σ → Quotation → Text → Text × Text
  | _, _, [] => ([], [])
  | st, q, '\\' :: c :: rest =>
    let (before, tail) := breakBare step st q rest
    ('\\' :: c :: before, tail)
  | st, q, c :: rest =>
    if q.bare c then
      match step st c with
      | none => ([], c :: rest)
      | some st' =>
        let (before, tail) := breakBare step st' q rest
        (c :: before, tail)
    else
      let (before, tail) := breakBare step st (q.next c) rest
      (c :: before, tail)

/-- Breaking loses nothing. -/
theorem breakBare_append {σ : Type} (step : σ → Char → Option σ) (st : σ) (q : Quotation)
    (s : Text) : (breakBare step st q s).1 ++ (breakBare step st q s).2 = s := by
  fun_induction breakBare step st q s <;> simp_all

/-- Cuts a text at its first bare `target`. -/
def cutBare (target : Char) (s : Text) : Option Cut :=
  match breakBare (fun _ c => if c = target then none else some ()) () none s with
  | (_, []) => none
  | (before, _ :: after) => some ⟨before, after⟩

end FilterList.Text
