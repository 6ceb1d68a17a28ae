import FilterList.Text.Basic
set_option autoImplicit false

/-!
# Readers: reading a style sheet fragment from the front

A reader takes a text and either takes something off its front or fails.  Every outcome says what
is left of the text at that moment, also a failure: that place is what an error message points to.

A failure is *soft* until somebody commits to it.  A soft failure lets the enclosing choice or
repetition go on from where it began; a committed one passes through them all.  On its way out a
failure gathers notes, innermost first, which say what was expected.
-/

namespace FilterList.Css

/-! ## Failures -/

/-- What a reader can say that it expected. -/
inductive Expectation where
  | char (c : Char)
  | selector
  | selectorAfterCombinator
  | attributeName
  | attributeValue
  | pseudoClassName
  | propertyName
  | mediaQuery
  deriving DecidableEq, Repr, Inhabited

namespace Expectation

/-- The wording of an expectation; a character stands between grave accents. -/
def wording : Expectation → String
  | char c => "`" ++ String.singleton c ++ "`"
  | selector => "selector"
  | selectorAfterCombinator => "selector after combinator"
  | attributeName => "attribute name"
  | attributeValue => "attribute value"
  | pseudoClassName => "pseudo-class name"
  | propertyName => "property name"
  | mediaQuery => "media query"

end Expectation

/-- What a failure learns on its way out of the grammar. -/
inductive Note where
  /-- the text failed inside a declaration -/
  | inDeclaration
  /-- something was expected where the text failed -/
  | expected (what : Expectation)
  deriving DecidableEq, Repr, Inhabited

namespace Note

/-- The expectations among some notes, in order. -/
def expectations (notes : List Note) : List Expectation :=
  notes.filterMap fun
    | expected what => some what
    | inDeclaration => none

/-- The wording of a list of notes: the place, if one is known, on a line of its own, and then all
that was expected. -/
def wording (notes : List Note) : String :=
  let place := if inDeclaration ∈ notes then ["invalid declaration"] else []
  let wanted :=
    match expectations notes with
    | [] => []
    | wants => ["expected " ++ String.intercalate ", " (wants.map Expectation.wording)]
  match place ++ wanted with
  | [] => "unexpected input"
  | lines => String.intercalate "\n" lines

end Note

/-- Why a reader gave up. -/
structure Failure where
  /-- no alternative is to be tried -/
  committed : Bool
  /-- what was expected, innermost first -/
  notes : List Note
  deriving DecidableEq, Repr, Inhabited

namespace Failure

/-- A failure that says nothing and lets alternatives be tried. -/
def soft : Failure := ⟨false, []⟩

end Failure

/-! ## Readers -/

/-- The outcome of reading from the front of a text, with what is left of it. -/
inductive Reply (α : Type) where
  | done (value : α) (rest : Text)
  | failed (failure : Failure) (rest : Text)
  deriving DecidableEq, Repr

namespace Reply

/-- Changes the value that was read. -/
def map {α β : Type} (f : α → β) : Reply α → Reply β
  | done value rest => done (f value) rest
  | failed failure rest => failed failure rest

/-- What is left of the text, whether reading succeeded or not. -/
def rest {α : Type} : Reply α → Text
  | done _ rest => rest
  | failed _ rest => rest

end Reply

/-- A reader takes something off the front of a text. -/
def Reader (α : Type) : Type := Text → Reply α

namespace Reader

variable {α β : Type}

instance : Monad Reader where
  pure a := fun s => .done a s
  bind p f := fun s =>
    match p s with
    | .done a rest => f a rest
    | .failed failure rest => .failed failure rest

@[simp] theorem pure_apply (a : α) (s : Text) : (pure a : Reader α) s = .done a s := rfl

theorem bind_apply (p : Reader α) (f : α → Reader β) (s : Text) :
    (p >>= f) s =
      match p s with
      | .done a rest => f a rest
      | .failed failure rest => .failed failure rest := rfl

/-- Changing the value does not change how the text is read. -/
theorem map_apply (f : α → β) (p : Reader α) (s : Text) : (f <$> p) s = (p s).map f := by
  show (p >>= fun a => pure (f a)) s = (p s).map f
  rw [bind_apply]
  cases p s <;> rfl

/-- Reading on after a success starts where the first reader stopped. -/
theorem bind_of_done {p : Reader α} {f : α → Reader β} {s rest : Text} {a : α}
    (h : p s = .done a rest) : (p >>= f) s = f a rest := by
  rw [bind_apply, h]

/-- A failure of the first reader is the failure of both. -/
theorem bind_of_failed {p : Reader α} {f : α → Reader β} {s rest : Text} {failure : Failure}
    (h : p s = .failed failure rest) : (p >>= f) s = .failed failure rest := by
  rw [bind_apply, h]

/-- Gives up softly, without taking anything. -/
def fail : Reader α := fun s => .failed .soft s

/-- Takes the character `c`. -/
def char (c : Char) : Reader Unit
  | d :: rest => if d = c then .done () rest else .failed .soft (d :: rest)
  | [] => .failed .soft []

/-- Takes off the front whatever `advance` takes; never fails. -/
def skip (advance : Text → Text) : Reader Unit := fun s => .done () (advance s)

/-- Says whether the text goes on with `c`, and takes nothing. -/
def lookingAt (c : Char) : Reader Bool := fun s => .done (Text.beginsWith c s) s

/-- Makes every failure of `p` final. -/
def committed (p : Reader α) : Reader α := fun s =>
  match p s with
  | .done a rest => .done a rest
  | .failed failure rest => .failed { failure with committed := true } rest

/-- Adds a note to every failure of `p`. -/
def noting (note : Note) (p : Reader α) : Reader α := fun s =>
  match p s with
  | .done a rest => .done a rest
  | .failed failure rest => .failed { failure with notes := failure.notes ++ [note] } rest

/-- Adds to every failure of `p` that something was expected. -/
def expecting (what : Expectation) (p : Reader α) : Reader α := noting (.expected what) p

/-- Reads with `p` if it can, and else takes nothing. -/
def attempt (p : Reader α) : Reader (Option α) := fun s =>
  match p s with
  | .done a rest => .done (some a) rest
  | .failed failure rest => if failure.committed then .failed failure rest else .done none s

/-- Reads with `p`, or from the same place with `q` if `p` fails softly. -/
def either (p q : Reader α) : Reader α := fun s =>
  match p s with
  | .done a rest => .done a rest
  | .failed failure rest => if failure.committed then .failed failure rest else q s

/-! ## Repetition -/

/-- Reads with `p` until it fails softly, `bound` times at most. -/
def manyUpTo (p : Reader α) : Nat → Reader (List α)
  | 0, s => .done [] s
  | bound + 1, s =>
    match p s with
    | .done a rest => (manyUpTo p bound rest).map (a :: ·)
    | .failed failure rest => if failure.committed then .failed failure rest else .done [] s

/-- Reads with `p` until it fails softly, and stops where the last success stopped.  A reader that
takes something each time it succeeds does so at most once for each character of the text, so
the bound is never met. -/
def many (p : Reader α) : Reader (List α) := fun s => manyUpTo p (s.length + 1) s

/-- One or more readings with `p`, with one of `separator` between them.  A separator after which
`p` fails softly is left in place. -/
def separated (separator : Reader Unit) (p : Reader α) : Reader (List α) := do
  let first ← p
  let others ← many do
    separator
    p
  return first :: others

/-- A reader makes progress: when it succeeds it has taken something. -/
def Progress (p : Reader α) : Prop :=
  ∀ s a rest, p s = .done a rest → rest.length < s.length

/-- Raising a bound that is above the length of the text changes nothing. -/
theorem manyUpTo_eq_of_lt {p : Reader α} (hp : Progress p) {m n : Nat} {s : Text}
    (hm : s.length < m) (hn : s.length < n) : manyUpTo p m s = manyUpTo p n s := by
  induction m generalizing n s with
  | zero => omega
  | succ m ih =>
    obtain ⟨n, rfl⟩ : ∃ k, n = k + 1 := ⟨n - 1, by omega⟩
    rw [manyUpTo, manyUpTo]
    cases h : p s with
    | failed failure rest => rfl
    | done a rest =>
      have hlt := hp s a rest h
      have := ih (n := n) (s := rest) (by omega) (by omega)
      simp only [this]

/-- One more turn of the repetition. -/
theorem many_apply {p : Reader α} (hp : Progress p) (s : Text) :
    many p s =
      match p s with
      | .done a rest => (many p rest).map (a :: ·)
      | .failed failure rest => if failure.committed then .failed failure rest else .done [] s := by
  rw [many, manyUpTo]
  cases h : p s with
  | failed failure rest => rfl
  | done a rest =>
    have hlt := hp s a rest h
    simp only [many]
    rw [manyUpTo_eq_of_lt hp (n := rest.length + 1) hlt (by omega)]

/-! ## Reading a whole text -/

/-- Where reading a whole text stopped short, and what was expected there. -/
structure Stop where
  /-- what is left of the text -/
  rest : Text
  /-- what was expected, innermost first -/
  notes : List Note
  deriving DecidableEq, Repr, Inhabited

/-- Reads a whole text; it is an error if something is left over. -/
def readAll (p : Reader α) (s : Text) : Except Stop α :=
  match p s with
  | .done a [] => .ok a
  | .done _ (c :: rest) => .error ⟨c :: rest, []⟩
  | .failed failure rest => .error ⟨rest, failure.notes⟩

end Reader

end FilterList.Css
