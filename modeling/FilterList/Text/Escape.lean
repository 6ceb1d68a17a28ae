import FilterList.Text.Offset
set_option autoImplicit false

/-!
# Escapes by looking back

In the rules of a filter list a character is escaped when the run of backslashes right before it
has odd length.  The functions of this file walk through a text and keep what they have passed,
nearest character first, so that the run is at hand at every step (`oddEscapes`).  Whether a
character is escaped is always judged in the whole text, never in the piece it ends up in.
-/

namespace FilterList.Text

/-- The run of backslashes at the near end of what has been passed is odd.  The passed text is
given nearest character first. -/
def oddEscapes (passed : Text) : Bool := (passed.takeWhile (· == '\\')).length % 2 == 1

/-- The text ends in an odd number of backslashes. -/
def endsEscaping (s : Text) : Bool := oddEscapes s.reverse

@[simp] theorem oddEscapes_nil : oddEscapes [] = false := rfl

/-- A backslash turns the parity over, any other character clears it. -/
theorem oddEscapes_cons (c : Char) (passed : Text) :
    oddEscapes (c :: passed) = (c == '\\' && !oddEscapes passed) := by
  by_cases h : c = '\\'
  · subst h
    simp only [oddEscapes, List.takeWhile_cons, beq_self_eq_true, if_true, List.length_cons,
      Bool.true_and]
    rcases Nat.mod_two_eq_zero_or_one ((passed.takeWhile (· == '\\')).length) with h0 | h1
    · have : ((passed.takeWhile (· == '\\')).length + 1) % 2 = 1 := by omega
      simp [h0, this]
    · have : ((passed.takeWhile (· == '\\')).length + 1) % 2 = 0 := by omega
      simp [h1, this]
  · simp [oddEscapes, h]

/-- The character at a byte offset is escaped.  An offset between two bytes of one character is
preceded by a byte that is no backslash. -/
def escapedAt (s : Text) (offset : Nat) : Except OffsetError Bool :=
  match splitAtByte offset s with
  | .ok (before, _) => .ok (endsEscaping before)
  | .error .insideCharacter => .ok false
  | .error .pastEnd => .error .pastEnd

/-! ## The first unescaped character -/

/-- Cuts the text at its first unescaped `target`, where `passed` stands before the text. -/
def cutUnescapedFrom (target : Char) : Text → Text → Option Cut
  | _, [] => none
  | passed, c :: rest =>
    if c = target ∧ oddEscapes passed = false then some ⟨[], rest⟩
    else (cutUnescapedFrom target (c :: passed) rest).map (Cut.shift c)

/-- Cuts a text at its first unescaped `target`. -/
def cutUnescaped (target : Char) (s : Text) : Option Cut := cutUnescapedFrom target [] s

/-! ## The last unescaped character without a guard behind it -/

/-- Cuts the text at its last unescaped `target` that no `guard` follows directly, where `passed`
stands before the text. -/
def cutLastUnescapedFrom (target guard : Char) : Text → Text → Option Cut
  | _, [] => none
  | passed, c :: rest =>
    match cutLastUnescapedFrom target guard (c :: passed) rest with
    | some cut => some (cut.shift c)
    | none =>
      if c = target ∧ beginsWith guard rest = false ∧ oddEscapes passed = false then
        some ⟨[], rest⟩
      else none

/-- Cuts a text at its last unescaped `target` that no `guard` follows directly. -/
def cutLastUnescaped (target guard : Char) (s : Text) : Option Cut :=
  cutLastUnescapedFrom target guard [] s

/-! ## Splitting -/

/-- The pieces of the text between its unescaped separators, where `passed` stands before it. -/
def splitUnescapedFrom (separator : Char) : Text → Text → List Text
  | _, [] => [[]]
  | passed, c :: rest =>
    let pieces := splitUnescapedFrom separator (c :: passed) rest
    if c = separator ∧ oddEscapes passed = false then [] :: pieces
    else pieces.modifyHead (c :: ·)

/-- The pieces of a text between its unescaped separators.  Escapes stay in the pieces. -/
def splitUnescaped (separator : Char) (s : Text) : List Text := splitUnescapedFrom separator [] s

end FilterList.Text
