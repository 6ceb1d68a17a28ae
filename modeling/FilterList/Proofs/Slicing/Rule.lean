import FilterList.Proofs.Agent
import FilterList.Proofs.NetworkRule
import FilterList.Proofs.Slicing.Scan
set_option autoImplicit false

/-!
# Modifiers, network rules and agent comments by offsets

Every offset that these readers cut at was found by a scan of the same text, and what is added to it
is the length of the character that was found there.
-/

namespace FilterList

open Text

/-! ## Modifiers -/

namespace Modifier

/-- Reads a modifier without its negation sign. -/
def checkedParseBody (negated : Bool) (text : Text) : Checked Modifier := do
  match ← unescapedOffset '=' text with
  | some sign =>
    let name ← sliceTo text sign
    let value ← sliceFrom text (sign + '='.utf8Size)
    return ⟨trim name, some (trim value), negated⟩
  | none => return ⟨text, none, negated⟩

/-- Reads a modifier. -/
def checkedParse (text : Text) : Checked Modifier :=
  match after? ['~'] text with
  | some rest => checkedParseBody true (trim rest)
  | none => checkedParseBody false text

/-- Reads a list of modifiers. -/
def checkedParseList (text : Text) : Checked (List Modifier) := do
  let pieces ← piecesBetween ',' text
  ((pieces.map trim).filter fun piece => !piece.isEmpty).mapM checkedParse

theorem checkedParseBody_eq (negated : Bool) (text : Text) :
    checkedParseBody negated text = .ok (parseBody negated text) := by
  rw [checkedParseBody, parseBody, unescapedOffset_eq, checked_ok_bind]
  cases hcut : cutUnescaped '=' text with
  | none => rfl
  | some cut =>
    obtain ⟨htext, -⟩ := cutUnescaped_eq_some_iff.mp hcut
    have hname : sliceTo text cut.offset = .ok cut.before := sliceTo_of_eq htext rfl
    have hvalue : sliceFrom text (cut.offset + '='.utf8Size) = .ok cut.after :=
      sliceFrom_behind htext
    simp [hname, hvalue]

theorem checkedParse_eq (text : Text) : checkedParse text = .ok (parse text) := by
  unfold checkedParse parse
  cases after? ['~'] text with
  | none => exact checkedParseBody_eq false text
  | some rest => exact checkedParseBody_eq true (trim rest)

theorem checkedParseList_eq (text : Text) : checkedParseList text = .ok (parseList text) := by
  rw [checkedParseList, piecesBetween_eq, checked_ok_bind, mapM_eq_ok checkedParse_eq]
  rfl

end Modifier

/-! ## Network rules -/

namespace NetworkRule

/-- The offset of the sign that separates the pattern from the modifiers. -/
def separatorOffset (text : Text) : Checked (Option Nat) := lastUnescapedOffset '$' '/' text

/-- Splits a rule into pattern and modifiers. -/
def checkedSplit (text : Text) : Checked (Text × List Modifier) := do
  match ← separatorOffset text with
  | none => return (text, [])
  | some separator =>
    let behind ← sliceFrom text (separator + '$'.utf8Size)
    let modifiers ← Modifier.checkedParseList behind
    let pattern ← sliceTo text separator
    if modifiers.isEmpty then
      let earlier ← separatorOffset pattern
      return if earlier.isSome then (text, modifiers) else (pattern, modifiers)
    else return (pattern, modifiers)

/-- Reads a network rule from its text without the exception mark. -/
def checkedOfBody (exception : Bool) (body : Text) : Checked NetworkRule := do
  let (pattern, modifiers) ← checkedSplit body
  return { dialect := .common, exception, regex := isRegex pattern, pattern, modifiers }

/-- Reads a network rule. -/
def checkedParse (text : Text) : Checked NetworkRule :=
  let trimmed := trim text
  match after? exceptionMark trimmed with
  | some body => checkedOfBody true body
  | none => checkedOfBody false trimmed

theorem separatorOffset_eq (text : Text) :
    separatorOffset text = .ok ((cutSeparator text).map Cut.offset) :=
  lastUnescapedOffset_eq '$' '/' text

theorem checkedSplit_eq (text : Text) : checkedSplit text = .ok (split text) := by
  rw [checkedSplit, split, separatorOffset_eq, checked_ok_bind]
  cases hcut : cutSeparator text with
  | none => rfl
  | some cut =>
    obtain ⟨htext, -⟩ := (cutLastUnescaped_eq_some_iff (by decide)).mp hcut
    have hbehind : sliceFrom text (cut.offset + '$'.utf8Size) = .ok cut.after :=
      sliceFrom_behind htext
    have hpattern : sliceTo text cut.offset = .ok cut.before := sliceTo_of_eq htext rfl
    simp only [Option.map_some, hbehind, hpattern, Modifier.checkedParseList_eq, checked_ok_bind,
      separatorOffset_eq, checked_pure, Option.isSome_map]
    cases (Modifier.parseList cut.after).isEmpty <;> cases (cutSeparator cut.before).isSome <;> rfl

theorem checkedOfBody_eq (exception : Bool) (body : Text) :
    checkedOfBody exception body = .ok (ofBody exception body) := by
  rw [checkedOfBody, checkedSplit_eq]
  rfl

theorem checkedParse_eq (text : Text) : checkedParse text = .ok (parse text) := by
  unfold checkedParse parse
  cases hmark : after? exceptionMark (trim text) with
  | none => simp [hmark, checkedOfBody_eq]
  | some body => simp [hmark, checkedOfBody_eq]

end NetworkRule

/-! ## Agent comments -/

namespace AgentMember

/-- The words before and from an index. -/
def cutWords (words : List Text) (index : Nat) : Checked (List Text × List Text) :=
  if index ≤ words.length then .ok (words.take index, words.drop index)
  else .error (.offset .pastEnd)

/-- Reads a member. -/
def checkedParse (text : Text) : Checked AgentMember :=
  let trimmed := trim text
  let words := trimmed.splitOn ' '
  match words.findIdx? isVersionWord with
  | some index =>
    if 0 < index then do
      let (nameWords, versionWords) ← cutWords words index
      return ⟨List.intercalate [' '] nameWords, some (List.intercalate [' '] versionWords)⟩
    else return ⟨trimmed, none⟩
  | none => return ⟨trimmed, none⟩

theorem checkedParse_eq (text : Text) : checkedParse text = .ok (parse text) := by
  simp only [checkedParse, parse, List.takeWhile_eq_take_findIdx_not,
    List.dropWhile_eq_drop_findIdx_not, Bool.not_not]
  cases hindex : ((trim text).splitOn ' ').findIdx? isVersionWord with
  | none =>
    rw [List.findIdx?_eq_none_iff_findIdx_eq] at hindex
    simp [hindex]
  | some index =>
    obtain ⟨hlt, hindex⟩ := List.findIdx?_eq_some_iff_findIdx_eq.mp hindex
    rw [hindex]
    by_cases hfirst : 0 < index
    · have hne : (trim text).splitOn ' ' ≠ [] := List.ne_nil_of_length_pos (by omega)
      have hwords : ((((trim text).splitOn ' ').take index).isEmpty ||
          (((trim text).splitOn ' ').drop index).isEmpty) = false := by
        simp [hne]
        omega
      simp [hfirst, hwords, cutWords, Nat.le_of_lt hlt]
    · obtain rfl : index = 0 := by omega
      simp

end AgentMember

namespace Agent

/-- The offset of the `[` of an agent list. -/
def openingOffset (text : Text) : Checked (Option Nat) :=
  match text with
  | [] => return none
  | c :: _ =>
    if c = '[' then return some 0
    else
      match CommentMark.ofChar? c with
      | none => return none
      | some _ => do
        let rest ← sliceFrom text c.utf8Size
        let start := c.utf8Size + trimStartOffset rest
        let list ← sliceFrom text start
        return if beginsWith '[' list then some start else none

/-- Reads an agent comment, if the text is one. -/
def checkedParse? (text : Text) : Checked (Option Agent) := do
  if byteLength text ≤ 1 || !endsWith ']' text then return none
  else
    match ← openingOffset text with
    | none => return none
    | some start =>
      let stop ← difference (byteLength text) ']'.utf8Size
      let content ← slice text (start + '['.utf8Size) stop
      let members ← (content.splitOn ';').mapM AgentMember.checkedParse
      return some { dialect := .common, members := members.filter fun m => !m.name.isEmpty }

theorem beginsWith_of_after?_eq_none {c : Char} {s : Text} (h : after? [c] s = none) :
    beginsWith c s = false := by
  cases s with
  | nil => rfl
  | cons d s =>
    have hd : c ≠ d := by
      rintro rfl
      simp [after?] at h
    simpa [beginsWith] using hd.symm

/-- The two ways in which the beginning of a text is read. -/
theorem openingOffset_cases (text : Text) :
    (afterOpening? text = none ∧ openingOffset text = .ok none) ∨
      ∃ front list, text = front ++ '[' :: list ∧ afterOpening? text = some list ∧
        openingOffset text = .ok (some (byteLength front)) := by
  cases text with
  | nil => exact .inl ⟨rfl, rfl⟩
  | cons c rest =>
    by_cases hc : c = '['
    · subst hc
      exact .inr ⟨[], rest, rfl, rfl, rfl⟩
    · rw [afterOpening?.eq_2 c rest hc, openingOffset, if_neg hc]
      cases CommentMark.ofChar? c with
      | none => exact .inl ⟨rfl, rfl⟩
      | some mark =>
        have hrest : sliceFrom (c :: rest) c.utf8Size = .ok rest :=
          sliceFrom_eq_ok_iff.mpr ⟨[c], rfl, by simp⟩
        have htext : c :: rest = (c :: rest.takeWhile isWhiteSpace) ++ trimStart rest := by
          rw [List.cons_append, takeWhile_append_trimStart]
        have hlist : sliceFrom (c :: rest) (c.utf8Size + trimStartOffset rest) =
            .ok (trimStart rest) := sliceFrom_of_eq htext rfl
        simp only [hrest, hlist, checked_ok_bind, checked_pure]
        cases hopen : after? ['['] (trimStart rest) with
        | none =>
          refine .inl ⟨rfl, ?_⟩
          rw [beginsWith_of_after?_eq_none hopen]
          rfl
        | some list =>
          have hbegins := eq_append_of_after? hopen
          refine .inr ⟨c :: rest.takeWhile isWhiteSpace, list, ?_, rfl, ?_⟩
          · rw [htext, hbegins]
            rfl
          · simp [hbegins, beginsWith, trimStartOffset]

/-- The last character of a text stands behind one that differs from it. -/
theorem exists_append_of_endsWith {c d : Char} (hcd : d ≠ c) {front list : Text}
    (h : endsWith c (front ++ d :: list) = true) : ∃ content, list = content ++ [c] := by
  rw [endsWith, beq_iff_eq, List.getLast?_append, List.getLast?_cons] at h
  cases hlast : list.getLast? with
  | none => simp [hlast, hcd] at h
  | some last =>
    have hc : last = c := by simpa [hlast] using h
    rw [hc] at hlast
    exact List.getLast?_eq_some_iff.mp hlast

theorem checkedParse?_eq (text : Text) : checkedParse? text = .ok (parse? text) := by
  rw [checkedParse?, parse?]
  obtain ⟨hafter, hopening⟩ | ⟨front, list, htext, hafter, hopening⟩ := openingOffset_cases text
  · rw [hafter, hopening]
    split <;> rfl
  rw [hafter, hopening]
  by_cases hend : endsWith ']' text = true
  · rw [htext] at hend
    obtain ⟨content, rfl⟩ := exists_append_of_endsWith (by decide) hend
    rw [← htext] at hend
    have hcontent : beforeFinal? ']' (content ++ [']']) = some content :=
      beforeFinal?_eq_some_iff.mpr rfl
    -- both brackets count, so that the text is long enough and the piece ends where it begins or
    -- later
    have hlength : byteLength text = byteLength front + 1 + byteLength content + 1 := by
      simp [htext, Nat.add_assoc]
      rfl
    have hstop : difference (byteLength text) ']'.utf8Size =
        .ok (byteLength front + 1 + byteLength content) := difference_of_eq hlength
    have hslice : slice text (byteLength front + '['.utf8Size)
        (byteLength front + 1 + byteLength content) = .ok content :=
      slice_of_eq (front ++ ['[']) [']'] (by simp [htext]) (by simp)
        (by simp only [byteLength_append, byteLength_cons, byteLength_nil]; rfl)
    have hlong : ¬ byteLength text ≤ 1 := by omega
    simp [hlong, hend, hcontent, hstop, hslice, mapM_eq_ok AgentMember.checkedParse_eq]
  · have hcontent : beforeFinal? ']' list = none := by
      cases hfinal : beforeFinal? ']' list with
      | none => rfl
      | some content =>
        have hlast : text = (front ++ '[' :: content) ++ [']'] := by
          rw [htext, beforeFinal?_eq_some_iff.mp hfinal]
          simp
        refine absurd ?_ hend
        rw [hlast, endsWith, List.getLast?_concat, beq_self_eq_true]
    simp [hend, hcontent]

end Agent

end FilterList
