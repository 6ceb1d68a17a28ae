import FilterList.Text.Basic
set_option autoImplicit false

/-!
# Round trips

A round trip reads a text, writes what was read, reads that again and writes it once more.  It
works for any way of reading, which may fail or find nothing, and any way of writing.
-/

namespace FilterList

/-- What reading a written text again gave. -/
inductive Reread (ε : Type) where
  /-- reading or writing failed this time -/
  | failed (error : ε)
  /-- nothing was found this time -/
  | unrecognized
  /-- something was read, and written as `text`; `same` says whether it is what was written -/
  | found (text : Text) (same : Bool)
  deriving DecidableEq, Repr

/-- The outcome of a round trip whose first half succeeded. -/
structure RoundTrip (ε : Type) where
  /-- the text that was written first -/
  first : Text
  second : Reread ε
  deriving DecidableEq, Repr

namespace RoundTrip

variable {α ε : Type} [DecidableEq α]

/-- Reads a written text again and compares. -/
def reread (read : Text → Except ε (Option α)) (write : α → Except ε Text) (a : α) (text : Text) :
    Reread ε :=
  match read text with
  | .error e => .failed e
  | .ok none => .unrecognized
  | .ok (some b) =>
    match write b with
    | .error e => .failed e
    | .ok again => .found again (b == a)

/-- Makes a round trip from a text, if something is found in it. -/
def run (read : Text → Except ε (Option α)) (write : α → Except ε Text) (text : Text) :
    Except ε (Option (RoundTrip ε)) := do
  match ← read text with
  | none => return none
  | some a =>
    let first ← write a
    return some { first, second := reread read write a first }

end RoundTrip

end FilterList
