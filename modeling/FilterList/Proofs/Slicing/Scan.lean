import FilterList.Proofs.Slicing.Basic
import FilterList.Proofs.Text.Balanced
set_option autoImplicit false

/-!
# Scanning by offsets

The scanners that give back pieces are repeated here as scanners that give back offsets.  Those of
the first kind look back from each offset for the run of backslashes before it; those of the second
kind keep the quotation and count brackets, where closing a bracket lowers the count.
-/

namespace FilterList.Text

/-! ## Scanning that looks back

Behind the characters `before` of a text, the places of the rest are met with the offset of the end
of `before`. -/

theorem byteLength_concat (before : Text) (c : Char) :
    byteLength (before ++ [c]) = byteLength before + c.utf8Size := by simp

/-- The character at a place is an unescaped `target`. -/
def isUnescapedPlace (target : Char) (s : Text) : Nat × Char → Checked Bool
  | (offset, c) =>
    if c = target then do
      let escaped ← isEscaped s offset
      return !escaped
    else return false

/-- The offset of the first unescaped `target`. -/
def unescapedOffset (target : Char) (s : Text) : Checked (Option Nat) := do
  let place ← (places s).findM? (isUnescapedPlace target s)
  return place.map fun (offset, _) => offset

theorem isUnescapedPlace_append (target : Char) (before : Text) (c : Char) (rest : Text) :
    isUnescapedPlace target (before ++ c :: rest) (byteLength before, c) =
      .ok (c = target ∧ endsEscaping before = false) := by
  unfold isUnescapedPlace
  by_cases hc : c = target
  · simp [hc, isEscaped_append]
  · simp [hc]

theorem findM?_isUnescapedPlace (target : Char) (before rest : Text) :
    (placesFrom (byteLength before) rest).findM? (isUnescapedPlace target (before ++ rest)) =
      .ok ((cutUnescapedFrom target before.reverse rest).map fun cut =>
        (byteLength before + cut.offset, target)) := by
  induction rest generalizing before with
  | nil => rfl
  | cons c rest ih =>
    rw [placesFrom, List.findM?, isUnescapedPlace_append, checked_ok_bind, cutUnescapedFrom]
    by_cases hc : c = target ∧ endsEscaping before = false
    · have hc' : c = target ∧ oddEscapes before.reverse = false := hc
      simp [hc, hc', Cut.offset]
    · have hc' : ¬ (c = target ∧ oddEscapes before.reverse = false) := hc
      have hrest := ih (before ++ [c])
      rw [byteLength_concat, ← List.append_cons, List.reverse_concat] at hrest
      rw [if_neg hc', decide_eq_false hc]
      simp only [hrest, Option.map_map]
      congr 2
      funext cut
      simp [Nat.add_assoc]

theorem unescapedOffset_eq (target : Char) (s : Text) :
    unescapedOffset target s = .ok ((cutUnescaped target s).map Cut.offset) := by
  have h := findM?_isUnescapedPlace target [] s
  rw [List.nil_append, byteLength_nil] at h
  rw [unescapedOffset, places, h, checked_ok_bind, cutUnescaped, List.reverse_nil]
  simp [Function.comp_def]

/-- The character at a place is unescaped and no `guard` follows it. -/
def isUnguardedPlace (guard : Char) (s : Text) : Nat × Char → Checked Bool
  | (offset, c) => do
    let behind ← sliceFrom s (offset + c.utf8Size)
    if beginsWith guard behind then return false
    else
      let escaped ← isEscaped s offset
      return !escaped

/-- The offset of the last unescaped `target` that no `guard` follows directly. -/
def lastUnescapedOffset (target guard : Char) (s : Text) : Checked (Option Nat) := do
  let targets := (places s).reverse.filter fun (_, c) => c = target
  let place ← targets.findM? (isUnguardedPlace guard s)
  return place.map fun (offset, _) => offset

theorem isUnguardedPlace_append (guard : Char) (before : Text) (c : Char) (rest : Text) :
    isUnguardedPlace guard (before ++ c :: rest) (byteLength before, c) =
      .ok (beginsWith guard rest = false ∧ endsEscaping before = false) := by
  have hbehind : sliceFrom (before ++ c :: rest) (byteLength before + c.utf8Size) = .ok rest :=
    sliceFrom_behind rfl
  rw [isUnguardedPlace, hbehind, checked_ok_bind, isEscaped_append]
  cases beginsWith guard rest <;> simp

theorem findM?_isUnguardedPlace (target guard : Char) (before rest : Text) :
    ((placesFrom (byteLength before) rest).reverse.filter fun (_, c) => c = target).findM?
        (isUnguardedPlace guard (before ++ rest)) =
      .ok ((cutLastUnescapedFrom target guard before.reverse rest).map fun cut =>
        (byteLength before + cut.offset, target)) := by
  induction rest generalizing before with
  | nil => rfl
  | cons c rest ih =>
    have hrest := ih (before ++ [c])
    rw [byteLength_concat, ← List.append_cons, List.reverse_concat] at hrest
    rw [placesFrom, List.reverse_cons, List.filter_append, findM?_append, hrest, checked_ok_bind,
      cutLastUnescapedFrom]
    cases hcut : cutLastUnescapedFrom target guard (c :: before.reverse) rest with
    | some cut => simp [Nat.add_assoc]
    | none =>
      by_cases hc : c = target
      · subst hc
        have hplace := isUnguardedPlace_append guard before c rest
        by_cases hfree : beginsWith guard rest = false ∧ endsEscaping before = false
        · have hfree' : beginsWith guard rest = false ∧ oddEscapes before.reverse = false := hfree
          simp [List.findM?, hplace, hfree, hfree', Cut.offset]
        · have hfree' : ¬ (beginsWith guard rest = false ∧ oddEscapes before.reverse = false) :=
            hfree
          simp [List.findM?, hplace, hfree, hfree']
      · simp [hc, List.findM?]

theorem lastUnescapedOffset_eq (target guard : Char) (s : Text) :
    lastUnescapedOffset target guard s =
      .ok ((cutLastUnescaped target guard s).map Cut.offset) := by
  have h := findM?_isUnguardedPlace target guard [] s
  rw [List.nil_append, byteLength_nil] at h
  rw [lastUnescapedOffset, places, h, checked_ok_bind, cutLastUnescaped, List.reverse_nil]
  simp [Function.comp_def]

/-- The pieces of `s` from the offset `start` on, cut at the unescaped separators among some
places. -/
def piecesFrom (separator : Char) (s : Text) : Nat → List (Nat × Char) → Checked (List Text)
  | start, [] => do
    let piece ← sliceFrom s start
    return [piece]
  | start, (offset, c) :: later => do
    if ← isUnescapedPlace separator s (offset, c) then
      let piece ← slice s start offset
      let pieces ← piecesFrom separator s (offset + c.utf8Size) later
      return piece :: pieces
    else piecesFrom separator s start later

/-- The pieces of a text between its unescaped separators. -/
def piecesBetween (separator : Char) (s : Text) : Checked (List Text) :=
  piecesFrom separator s 0 (places s)

theorem modifyHead_nil_append (pieces : List Text) : pieces.modifyHead ([] ++ ·) = pieces := by
  cases pieces <;> rfl

theorem piecesFrom_eq (separator : Char) {s rest : Text} (before piece : Text)
    (start offset : Nat) (hs : s = before ++ piece ++ rest) (hstart : start = byteLength before)
    (hoffset : offset = byteLength (before ++ piece)) :
    piecesFrom separator s start (placesFrom offset rest) =
      .ok ((splitUnescapedFrom separator (before ++ piece).reverse rest).modifyHead
        (piece ++ ·)) := by
  induction rest generalizing before piece start offset with
  | nil =>
    have hpiece : sliceFrom s start = .ok piece :=
      sliceFrom_of_eq (by rw [hs, List.append_nil]) hstart
    rw [placesFrom, piecesFrom, hpiece]
    simp [splitUnescapedFrom]
  | cons c rest ih =>
    have hplace : isUnescapedPlace separator s (offset, c) =
        .ok (c = separator ∧ endsEscaping (before ++ piece) = false) := by
      rw [hs, hoffset, isUnescapedPlace_append]
    rw [placesFrom, piecesFrom, hplace, checked_ok_bind, splitUnescapedFrom]
    by_cases hc : c = separator ∧ endsEscaping (before ++ piece) = false
    · have hc' : c = separator ∧ oddEscapes (before ++ piece).reverse = false := hc
      have hpiece : slice s start offset = .ok piece :=
        slice_of_eq before (c :: rest) hs hstart hoffset
      have hlater := ih (before ++ piece ++ [c]) [] (offset + c.utf8Size) (offset + c.utf8Size)
        (by simp [hs]) (by simp [hoffset]; omega) (by simp [hoffset]; omega)
      rw [modifyHead_nil_append] at hlater
      rw [decide_eq_true hc, if_pos rfl, hpiece, if_pos hc', checked_ok_bind, hlater]
      simp
    · have hc' : ¬ (c = separator ∧ oddEscapes (before ++ piece).reverse = false) := hc
      have hlater := ih before (piece ++ [c]) start (offset + c.utf8Size) (by simp [hs]) hstart
        (by simp [hoffset]; omega)
      rw [decide_eq_false hc, if_neg Bool.false_ne_true, if_neg hc', hlater]
      simp [Function.comp_def]

theorem piecesBetween_eq (separator : Char) (s : Text) :
    piecesBetween separator s = .ok (splitUnescaped separator s) := by
  have h := piecesFrom_eq separator [] [] 0 0 (List.nil_append s).symm rfl rfl
  rwa [modifyHead_nil_append] at h

/-! ## Scanning that keeps the quotation -/

/-- The offset of the first bare character that `step` refuses, counted from `offset`. -/
def stopFrom {σ : Type} (step : σ → Char → Checked (Option σ)) :
    σ → Quotation → Nat → Text → Checked (Option Nat)
  | _, _, _, [] => return none
  | st, q, offset, '\\' :: c :: rest =>
    stopFrom step st q (offset + '\\'.utf8Size + c.utf8Size) rest
  | st, q, offset, c :: rest =>
    if q.bare c then do
      match ← step st c with
      | none => return some offset
      | some st' => stopFrom step st' q (offset + c.utf8Size) rest
    else stopFrom step st (q.next c) (offset + c.utf8Size) rest

/-- The offset at which a text was broken, if it was. -/
def breakOffset (parts : Text × Text) : Option Nat :=
  if parts.2.isEmpty then none else some (byteLength parts.1)

/-- Scanning by offsets stops where the scan stops that gives back the pieces, if its step function
follows the other one under a change of states. -/
theorem stopFrom_eq {σ τ : Type} {step : σ → Char → Option σ}
    {checkedStep : τ → Char → Checked (Option τ)} (f : σ → τ)
    (hstep : ∀ st c, checkedStep (f st) c = .ok ((step st c).map f)) (st : σ) (q : Quotation)
    (offset : Nat) (s : Text) :
    stopFrom checkedStep (f st) q offset s =
      .ok ((breakOffset (breakBare step st q s)).map (offset + ·)) := by
  induction s using escapeInduction generalizing st q offset with
  | nil => rfl
  | lone => simp [stopFrom, breakBare, breakOffset, Quotation.bare]
  | escape c s ih =>
    rw [stopFrom, ih, breakBare]
    simp [breakOffset, apply_ite, Nat.add_assoc]
  | char c s hc ih =>
    rw [stopFrom, breakBare_cons hc, advance]
    · by_cases hbare : q.bare c = true
      · rw [if_pos hbare, if_pos hbare, hstep, checked_ok_bind]
        cases hnext : step st c with
        | none => simp [breakOffset]
        | some st' => simp [ih, breakOffset, apply_ite, Nat.add_assoc]
      · rw [if_neg hbare, if_neg hbare, ih]
        simp [breakOffset, apply_ite, Nat.add_assoc]
    · intro _ _ hcons
      exact fun _ => absurd hcons hc

/-- The offset of the first bare `target`. -/
def unquotedOffset (target : Char) (s : Text) : Checked (Option Nat) :=
  stopFrom (fun _ c => return if c = target then none else some ()) () none 0 s

theorem unquotedOffset_eq (target : Char) (s : Text) :
    unquotedOffset target s = .ok ((cutBare target s).map Cut.offset) := by
  have hscan : unquotedOffset target s =
      .ok ((breakOffset (breakBare (avoiding target) () none s)).map (0 + ·)) :=
    stopFrom_eq id (fun _ c => by simp [avoiding]) () none 0 s
  rw [hscan]
  cases hbreak : breakBare (avoiding target) () none s with
  | mk before tail =>
    cases tail with
    | nil => rw [cutBare_of_breakBare_nil hbreak]; rfl
    | cons c after =>
      rw [cutBare_of_breakBare_cons hbreak]
      simp [breakOffset, Cut.offset]

/-- The depth behind one bare character of a group, where the parenthesis that opens the group
counts. -/
def closingStep (depth : Nat) (c : Char) : Checked (Option Nat) :=
  if c = '(' then return some (depth + 1)
  else if c = ')' then do
    let outer ← difference depth 1
    return if outer = 0 then none else some outer
  else return some depth

/-- The offset of the parenthesis that closes the group opening at the offset `start`, if a group
opens there and is closed. -/
def closingOffset (s : Text) (start : Nat) : Checked (Option Nat) := do
  let tail ← sliceFrom s start
  if beginsWith '(' tail then
    let stop ← stopFrom closingStep 0 none 0 tail
    return stop.map (start + ·)
  else return none

/-- Inside the group the depth is one above that of its content, so that it can be lowered. -/
theorem closingStep_succ (depth : Nat) (c : Char) :
    closingStep (depth + 1) c = .ok ((groupStep depth c).map (· + 1)) := by
  unfold closingStep groupStep
  by_cases hopen : c = '('
  · simp [hopen]
  by_cases hclose : c = ')'
  · rw [if_neg hopen, if_pos hclose, difference_of_eq rfl]
    cases depth <;> simp [hclose]
  · simp [hopen, hclose]

theorem stopFrom_closingStep (s : Text) :
    stopFrom closingStep 0 none 0 ('(' :: s) =
      .ok ((group? ('(' :: s)).map fun (content, _) => 1 + byteLength content) := by
  have hopen : closingStep 0 '(' = .ok (some 1) := rfl
  have hbare : Quotation.bare none '(' = true := rfl
  rw [stopFrom, if_pos hbare, hopen, checked_ok_bind]
  · refine (stopFrom_eq (· + 1) closingStep_succ 0 none _ s).trans ?_
    rw [group?]
    cases breakBare groupStep 0 none s with
    | mk before tail => cases tail <;> rfl
  · intro _ _ hcons
    exact fun _ => absurd hcons (by decide)

/-- At the end of every character a closing parenthesis can be asked for. -/
theorem closingOffset_append {s before after : Text} {start : Nat} (hs : s = before ++ after)
    (hstart : start = byteLength before) :
    closingOffset s start =
      .ok ((group? after).map fun (content, _) => start + 1 + byteLength content) := by
  rw [closingOffset, sliceFrom_of_eq hs hstart, checked_ok_bind]
  by_cases hopen : beginsWith '(' after = true
  · obtain ⟨inner, rfl⟩ : ∃ inner, after = '(' :: inner := by
      rw [beginsWith, beq_iff_eq] at hopen
      exact List.head?_eq_some_iff.mp hopen
    rw [if_pos hopen, stopFrom_closingStep]
    simp [Function.comp_def, Nat.add_assoc]
  · have hnone : group? after = none := by
      unfold group?
      split
      · exact absurd rfl hopen
      · rfl
    rw [if_neg hopen, hnone]
    rfl

theorem groupEnd_append {s before after : Text} {start : Nat} (hs : s = before ++ after)
    (hstart : start = byteLength before) :
    groupEnd s start =
      .ok ((group? after).map fun (content, _) => start + 1 + byteLength content) := by
  rw [groupEnd, hs, hstart, splitAtByte, splitAtByte?_byteLength]

/-- The only faults are those of the offset that the caller brings. -/
theorem closingOffset_eq (s : Text) (start : Nat) :
    closingOffset s start = (groupEnd s start).mapError .offset := by
  cases hsplit : splitAtByte start s with
  | error cause =>
    rw [closingOffset, sliceFrom, halves, groupEnd, hsplit]
    rfl
  | ok parts =>
    have hhalves : halves s start = .ok parts := by
      rw [halves, hsplit]
      rfl
    obtain ⟨hs, hstart⟩ := halves_eq_ok_iff.mp hhalves
    rw [closingOffset_append hs hstart.symm, groupEnd_append hs hstart.symm]
    rfl

/-- An offset inside a character is a fault, and so would be to close more than was opened. -/
example : closingOffset ['é', '('] 1 = .error (.offset .insideCharacter) ∧
    closingOffset ['é', '(', ')'] 2 = .ok (some 3) ∧ closingStep 0 ')' = .error .negative :=
  ⟨rfl, rfl, rfl⟩

end FilterList.Text
