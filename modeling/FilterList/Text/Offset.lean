import FilterList.Text.Basic
set_option autoImplicit false

/-!
# Byte offsets into a text

Only a caller who brings a byte offset of its own can bring a wrong one.  `splitAtByte?` cuts a
text at an offset that is the end of a whole number of characters, and says no to any other.
-/

namespace FilterList.Text

/-- Why a byte offset names no place in a text. -/
inductive OffsetError where
  /-- the offset lies beyond the end -/
  | pastEnd
  /-- the offset lies between two bytes of one character -/
  | insideCharacter
  deriving DecidableEq, Repr, Inhabited

/-- The text before and the text from a byte offset, if the offset is a boundary of characters. -/
def splitAtByte? : Nat → Text → Option (Text × Text)
  | 0, s => some ([], s)
  | _ + 1, [] => none
  | n + 1, c :: rest =>
    if c.utf8Size ≤ n + 1 then
      (splitAtByte? (n + 1 - c.utf8Size) rest).map fun (before, tail) => (c :: before, tail)
    else none

/-- The text before and the text from a byte offset, or the fault of the offset. -/
def splitAtByte (offset : Nat) (s : Text) : Except OffsetError (Text × Text) :=
  match splitAtByte? offset s with
  | some parts => .ok parts
  | none => .error (if byteLength s < offset then .pastEnd else .insideCharacter)

/-- Splitting at an offset loses nothing, and the first part has that many bytes. -/
theorem splitAtByte?_eq_some {n : Nat} {s before rest : Text}
    (h : splitAtByte? n s = some (before, rest)) : s = before ++ rest ∧ byteLength before = n := by
  induction s generalizing n before with
  | nil =>
    cases n with
    | zero => simp_all [splitAtByte?]
    | succ n => simp [splitAtByte?] at h
  | cons c tail ih =>
    cases n with
    | zero => simp_all [splitAtByte?]
    | succ n =>
      by_cases hc : c.utf8Size ≤ n + 1
      · simp only [splitAtByte?, if_pos hc, Option.map_eq_some_iff, Prod.mk.injEq] at h
        obtain ⟨⟨b, r⟩, hb, rfl, rfl⟩ := h
        obtain ⟨hs, hn⟩ := ih hb
        exact ⟨by simp [← hs], by simp [hn]; omega⟩
      · simp [splitAtByte?, hc] at h

/-- The end of every first part is a boundary. -/
theorem splitAtByte?_byteLength (before rest : Text) :
    splitAtByte? (byteLength before) (before ++ rest) = some (before, rest) := by
  induction before with
  | nil => simp [splitAtByte?]
  | cons c tail ih =>
    have hpos : 0 < c.utf8Size := Char.utf8Size_pos c
    obtain ⟨n, hn⟩ : ∃ n, byteLength (c :: tail) = n + 1 :=
      ⟨c.utf8Size + byteLength tail - 1, by simp only [byteLength_cons]; omega⟩
    have hle : c.utf8Size ≤ n + 1 := by rw [← hn, byteLength_cons]; omega
    have hsub : n + 1 - c.utf8Size = byteLength tail := by
      rw [← hn, byteLength_cons]; omega
    rw [hn]
    simp [splitAtByte?, hle, hsub, ih]

end FilterList.Text
