import FilterList.Css.Reader
set_option autoImplicit false

/-!
# Errors of style sheet fragments

An error says which kind of fragment was asked for, repeats the fragment, and gives the byte
offset at which reading stopped together with what was expected there.
-/

namespace FilterList.Css

/-- The kinds of fragment that can be read on their own. -/
inductive FragmentKind where
  | selector
  | block
  | mediaQueryList
  deriving DecidableEq, Repr, Inhabited

/-- The name of a kind of fragment in messages. -/
def FragmentKind.wording : FragmentKind → String
  | selector => "selector"
  | block => "declaration block"
  | mediaQueryList => "media query list"

/-- A text that is no fragment of the kind that was asked for. -/
structure SyntaxError where
  kind : FragmentKind
  /-- the whole text that was read -/
  fragment : Text
  /-- the byte offset in the fragment at which reading stopped -/
  offset : Nat
  /-- what was expected there, innermost first -/
  notes : List Note
  deriving DecidableEq, Repr, Inhabited

namespace SyntaxError

/-- What is wrong at the offset. -/
def detail (e : SyntaxError) : String := Note.wording e.notes

/-- The error in one sentence. -/
def message (e : SyntaxError) : String :=
  "invalid " ++ e.kind.wording ++ " syntax at offset " ++ Nat.repr e.offset ++ " in '" ++
    String.ofList e.fragment ++ "': " ++ e.detail

end SyntaxError

/-- Reads a whole fragment of the given kind. -/
def Reader.parseAs {α : Type} (kind : FragmentKind) (p : Reader α) (fragment : Text) :
    Except SyntaxError α :=
  match p.readAll fragment with
  | .ok a => .ok a
  | .error stop =>
    .error {
      kind, fragment
      offset := Text.byteLength fragment - Text.byteLength stop.rest
      notes := stop.notes }

/-- A fragment is accepted when a reader takes all of it. -/
theorem Reader.parseAs_eq_ok_iff {α : Type} {kind : FragmentKind} {p : Reader α} {fragment : Text}
    {a : α} : p.parseAs kind fragment = .ok a ↔ p fragment = .done a [] := by
  unfold Reader.parseAs Reader.readAll
  cases h : p fragment with
  | failed failure rest => simp
  | done b rest => cases rest <;> simp

end FilterList.Css
