import FilterList.Text.Offset
import FilterList.Text.Quotation
set_option autoImplicit false

/-!
# Parenthesised groups

A group opens with `(` and closes at the bare `)` that balances it.  Only round brackets nest
here; what else stands in the group is kept as it is.
-/

namespace FilterList.Text

/-- The depth after one bare character inside a group; the `)` that closes the group itself is
refused. -/
def groupStep (depth : Nat) (c : Char) : Option Nat :=
  if c = '(' then some (depth + 1)
  else if c = ')' then
    match depth with
    | 0 => none
    | d + 1 => some d
  else some depth

/-- Splits a text that opens with a group into the group's content and what follows it. -/
def group? : Text → Option (Text × Text)
  | '(' :: rest =>
    match breakBare groupStep 0 none rest with
    | (_, []) => none
    | (content, _ :: after) => some (content, after)
  | _ => none

/-- The byte offset of the `)` that closes the group opening at the byte offset `start`, if a
group opens there and is closed. -/
def groupEnd (s : Text) (start : Nat) : Except OffsetError (Option Nat) :=
  match splitAtByte start s with
  | .error fault => .error fault
  | .ok (_, tail) => .ok ((group? tail).map fun (content, _) => start + 1 + byteLength content)

end FilterList.Text
