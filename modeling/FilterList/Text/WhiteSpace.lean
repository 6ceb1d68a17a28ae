import FilterList.Text.Basic
set_option autoImplicit false

/-!
# White space and trimming

A rule is trimmed of the characters with the Unicode property `White_Space`.  The property is a
short table of ranges; trimming is `dropWhile` at either end.
-/

namespace FilterList.Text

/-- The ranges of code points with the Unicode property `White_Space`, in rising order. -/
def whiteSpaceRanges : List (Nat × Nat) :=
  [(0x09, 0x0D), (0x20, 0x20), (0x85, 0x85), (0xA0, 0xA0), (0x1680, 0x1680), (0x2000, 0x200A),
   (0x2028, 0x2029), (0x202F, 0x202F), (0x205F, 0x205F), (0x3000, 0x3000)]

/-- The character has the Unicode property `White_Space`. -/
def isWhiteSpace (c : Char) : Bool :=
  whiteSpaceRanges.any fun range => range.1 ≤ c.toNat && c.toNat ≤ range.2

/-- The ranges do not overlap and hold 25 code points. -/
example : whiteSpaceRanges.Pairwise (fun a b => a.2 < b.1) ∧
    whiteSpaceRanges.foldl (fun count range => count + (range.2 + 1 - range.1)) 0 = 25 := by
  decide

/-- Without the white space at the front. -/
def trimStart (s : Text) : Text := s.dropWhile isWhiteSpace

/-- Without the white space at the end. -/
def trimEnd (s : Text) : Text := (s.reverse.dropWhile isWhiteSpace).reverse

/-- Without the white space at either end. -/
def trim (s : Text) : Text := trimEnd (trimStart s)

/-- The byte offset of the first character that is not white space, or the length of the text. -/
def trimStartOffset (s : Text) : Nat := byteLength (s.takeWhile isWhiteSpace)

@[simp] theorem trimStart_nil : trimStart [] = [] := rfl

@[simp] theorem trimEnd_nil : trimEnd [] = [] := rfl

@[simp] theorem trim_nil : trim [] = [] := rfl

/-- What is dropped at the front and what is kept make up the text. -/
theorem takeWhile_append_trimStart (s : Text) : s.takeWhile isWhiteSpace ++ trimStart s = s :=
  List.takeWhile_append_dropWhile

/-- What is kept and what is dropped at the end make up the text. -/
theorem trimEnd_append (s : Text) :
    trimEnd s ++ (s.reverse.takeWhile isWhiteSpace).reverse = s := by
  rw [trimEnd, ← List.reverse_append, List.takeWhile_append_dropWhile, List.reverse_reverse]

end FilterList.Text
