import FilterList.Text.Escape
import FilterList.Text.WhiteSpace
import FilterList.Proofs.Outcome
set_option autoImplicit false

/-!
# Slices by byte offsets

The readers of this library hand the pieces of a text around and count no bytes.  A program that
keeps the text whole works with byte offsets instead, and then a cut can go wrong: the offset may
lie beyond the end or inside a character, two offsets may stand in the wrong order, and a
difference of offsets may fall below zero.  This file holds these operations with their faults.
The other files of this directory do the work of the readers a second time, by offsets, and show
that no fault is ever met.
-/

namespace FilterList.Text

/-- What can go wrong with byte offsets. -/
inductive Fault where
  /-- the offset names no place in the text -/
  | offset (cause : OffsetError)
  /-- the piece would end before it begins -/
  | reversed
  /-- the difference would fall below zero -/
  | negative
  deriving DecidableEq, Repr, Inhabited

/-- The outcome of work with offsets. -/
abbrev Checked : Type → Type := Except Fault

section

variable {α β : Type}

@[simp] theorem checked_pure (a : α) : (pure a : Checked α) = .ok a := rfl

@[simp] theorem checked_ok_bind (a : α) (f : α → Checked β) : ((.ok a : Checked α) >>= f) = f a :=
  rfl

theorem mapM_eq_ok {f : α → Checked β} {g : α → β} (h : ∀ a, f a = .ok (g a)) (l : List α) :
    l.mapM f = .ok (l.map g) := by
  have hf : f = fun a => pure (g a) := funext h
  rw [hf, List.mapM_pure]
  rfl

end

/-! ## Pieces of a text -/

theorem byteLength_eq_zero_iff {s : Text} : byteLength s = 0 ↔ s = [] := by
  cases s with
  | nil => simp
  | cons c s =>
    have hpos := Char.utf8Size_pos c
    simp only [byteLength_cons, reduceCtorEq, iff_false]
    omega

/-- The text before and the text from an offset. -/
def halves (s : Text) (offset : Nat) : Checked (Text × Text) :=
  (splitAtByte offset s).mapError .offset

/-- The text from an offset. -/
def sliceFrom (s : Text) (start : Nat) : Checked Text := do
  let (_, tail) ← halves s start
  return tail

/-- The text before an offset. -/
def sliceTo (s : Text) (stop : Nat) : Checked Text := do
  let (head, _) ← halves s stop
  return head

/-- The text between two offsets. -/
def slice (s : Text) (start stop : Nat) : Checked Text :=
  if start ≤ stop then do
    let head ← sliceTo s stop
    sliceFrom head start
  else .error .reversed

/-- The difference of two offsets. -/
def difference (m n : Nat) : Checked Nat := if n ≤ m then .ok (m - n) else .error .negative

/-- A text is cut exactly at the ends of whole characters. -/
theorem halves_eq_ok_iff {s head tail : Text} {offset : Nat} :
    halves s offset = .ok (head, tail) ↔ s = head ++ tail ∧ byteLength head = offset := by
  constructor
  · intro h
    rw [halves, mapError_eq_ok_iff, splitAtByte] at h
    cases hsplit : splitAtByte? offset s with
    | none =>
      rw [hsplit] at h
      cases h
    | some parts =>
      rw [hsplit] at h
      cases h
      exact splitAtByte?_eq_some hsplit
  · intro h
    obtain ⟨rfl, rfl⟩ := h
    rw [halves, splitAtByte, splitAtByte?_byteLength]
    rfl

theorem sliceFrom_eq_ok_iff {s tail : Text} {start : Nat} :
    sliceFrom s start = .ok tail ↔ ∃ head, s = head ++ tail ∧ byteLength head = start := by
  simp only [← halves_eq_ok_iff]
  rw [sliceFrom, bind_eq_ok_iff]
  simp

theorem sliceTo_eq_ok_iff {s head : Text} {stop : Nat} :
    sliceTo s stop = .ok head ↔ ∃ tail, s = head ++ tail ∧ byteLength head = stop := by
  simp only [← halves_eq_ok_iff]
  rw [sliceTo, bind_eq_ok_iff]
  simp

/-- A piece lies between two offsets exactly if whole characters stand before, in and behind it. -/
theorem slice_eq_ok_iff {s piece : Text} {start stop : Nat} :
    slice s start stop = .ok piece ↔
      ∃ before after, s = before ++ piece ++ after ∧ byteLength before = start ∧
        byteLength (before ++ piece) = stop := by
  unfold slice
  constructor
  · intro h
    split at h
    · rw [bind_eq_ok_iff] at h
      obtain ⟨head, hhead, htail⟩ := h
      obtain ⟨after, hs, hstop⟩ := sliceTo_eq_ok_iff.mp hhead
      obtain ⟨before, rfl, hstart⟩ := sliceFrom_eq_ok_iff.mp htail
      exact ⟨before, after, hs, hstart, hstop⟩
    · cases h
  · intro h
    obtain ⟨before, after, hs, rfl, rfl⟩ := h
    have hhead : sliceTo s (byteLength (before ++ piece)) = .ok (before ++ piece) :=
      sliceTo_eq_ok_iff.mpr ⟨after, hs, rfl⟩
    rw [if_pos (by simp), hhead, checked_ok_bind]
    exact sliceFrom_eq_ok_iff.mpr ⟨before, rfl, rfl⟩

/-- The slice ends inside the second character, or before it begins. -/
example : slice ['a', 'é'] 0 2 = .error (.offset .insideCharacter) ∧
    slice ['a', 'é'] 1 0 = .error .reversed ∧ slice ['a', 'é'] 1 3 = .ok ['é'] :=
  ⟨rfl, rfl, rfl⟩

theorem sliceFrom_of_eq {s head tail : Text} {start : Nat} (hs : s = head ++ tail)
    (hstart : start = byteLength head) : sliceFrom s start = .ok tail :=
  sliceFrom_eq_ok_iff.mpr ⟨head, hs, hstart.symm⟩

/-- The text behind a character. -/
theorem sliceFrom_behind {s before after : Text} {c : Char} (hs : s = before ++ c :: after) :
    sliceFrom s (byteLength before + c.utf8Size) = .ok after :=
  sliceFrom_eq_ok_iff.mpr ⟨before ++ [c], by simp [hs], by simp⟩

theorem sliceTo_of_eq {s head tail : Text} {stop : Nat} (hs : s = head ++ tail)
    (hstop : stop = byteLength head) : sliceTo s stop = .ok head :=
  sliceTo_eq_ok_iff.mpr ⟨tail, hs, hstop.symm⟩

theorem slice_of_eq {s piece : Text} {start stop : Nat} (before after : Text)
    (hs : s = before ++ piece ++ after) (hstart : start = byteLength before)
    (hstop : stop = byteLength (before ++ piece)) : slice s start stop = .ok piece :=
  slice_eq_ok_iff.mpr ⟨before, after, hs, hstart.symm, hstop.symm⟩

theorem difference_of_eq {m n d : Nat} (h : m = d + n) : difference m n = .ok d := by
  rw [difference, if_pos (by omega), h, Nat.add_sub_cancel]

/-! ## Escapes -/

/-- The character at an offset is escaped.  The offset need not be the end of a character. -/
def isEscaped (s : Text) (offset : Nat) : Checked Bool := (escapedAt s offset).mapError .offset

theorem escapedAt_append (before after : Text) :
    escapedAt (before ++ after) (byteLength before) = .ok (endsEscaping before) := by
  rw [escapedAt, splitAtByte, splitAtByte?_byteLength]

theorem isEscaped_append (before after : Text) :
    isEscaped (before ++ after) (byteLength before) = .ok (endsEscaping before) := by
  rw [isEscaped, escapedAt_append]
  rfl

/-- Whether a character is escaped can be asked for every offset up to the end. -/
theorem exists_isEscaped_eq_ok_iff {s : Text} {offset : Nat} :
    (∃ b, isEscaped s offset = .ok b) ↔ offset ≤ byteLength s := by
  unfold isEscaped escapedAt splitAtByte
  cases hsplit : splitAtByte? offset s with
  | some parts =>
    obtain ⟨before, after⟩ := parts
    obtain ⟨hs, hlength⟩ := splitAtByte?_eq_some hsplit
    constructor
    · intro _
      rw [hs, byteLength_append]
      omega
    · intro _
      exact ⟨endsEscaping before, rfl⟩
  | none =>
    by_cases hend : byteLength s < offset
    · simp only [if_pos hend]
      constructor
      · intro h
        obtain ⟨b, hb⟩ := h
        cases hb
      · intro h
        omega
    · simp only [if_neg hend]
      constructor
      · intro _
        omega
      · intro _
        exact ⟨false, rfl⟩

/-! ## Characters with their offsets -/

/-- The characters of a text with their offsets, counted from `start`. -/
def placesFrom (start : Nat) : Text → List (Nat × Char)
  | [] => []
  | c :: s => (start, c) :: placesFrom (start + c.utf8Size) s

/-- The characters of a text with their offsets. -/
def places (s : Text) : List (Nat × Char) := placesFrom 0 s

/-- A search behind a first list goes on with a second one. -/
theorem findM?_append {α : Type} (p : α → Checked Bool) (l l' : List α) :
    (l ++ l').findM? p =
      l.findM? p >>= fun found => if found.isSome then pure found else l'.findM? p := by
  induction l with
  | nil => rfl
  | cons a l ih =>
    rw [List.cons_append, List.findM?, List.findM?, bind_assoc]
    congr 1
    funext b
    cases b with
    | true => rfl
    | false => exact ih

end FilterList.Text
