import FilterList.Proofs.Injection.Removal
set_option autoImplicit false

/-!
# Which form a text has

Two detectors decide whether a text is a style injection, and in which form.  Whoever reads a list
goes on to the next kind of rule when none of them recognizes a line, and reports an error when one
does and the line cannot be read.  So the detectors must not both recognize a text, reading has to
say that there is no injection exactly when neither does, and an error has to be one of the parts
that were found.
-/

namespace FilterList.Injection

open Css Text

/-! ## Errors in the parts -/

/-- The error of a text whose form was recognized: a part of it cannot be read, or removal is asked
for in a way that is not allowed. -/
def InParts (text : Text) (e : InjectionError) : Prop :=
  (∃ cause, e.cause? = some cause) ∨ e = .repeatedRemoval text ∨ e = .mixedRemoval text

namespace InParts

variable {text : Text} {e : InjectionError}

theorem ne_unrecognized (h : InParts text e) (raw : Text) : e ≠ .unrecognized raw := by
  rintro rfl
  simp [InParts, InjectionError.cause?] at h

theorem ne_unsupported (h : InParts text e) (dialect : Dialect) : e ≠ .unsupported dialect := by
  rintro rfl
  simp [InParts, InjectionError.cause?] at h

theorem ne_mediaQueryUnsupported (h : InParts text e) (dialect : Dialect) :
    e ≠ .mediaQueryUnsupported dialect := by
  rintro rfl
  simp [InParts, InjectionError.cause?] at h

end InParts

section

variable {text t : Text} {e : InjectionError}

theorem inParts_of_parseSelectors (h : parseSelectors t = .error e) : InParts text e := by
  obtain ⟨cause, -, rfl⟩ := mapError_eq_error_iff.mp h
  exact .inl ⟨cause, rfl⟩

theorem inParts_of_parseContent (h : parseContent t = .error e) : InParts text e := by
  obtain ⟨cause, -, rfl⟩ := mapError_eq_error_iff.mp h
  exact .inl ⟨cause, rfl⟩

end

namespace AdGuard

theorem inParts_of_parseMediaQueries {text : Text} {queries : Option Text} {e : InjectionError}
    (h : parseMediaQueries queries = .error e) : InParts text e := by
  cases queries with
  | none => cases h
  | some t =>
    obtain ⟨cause, -, rfl⟩ := mapError_eq_error_iff.mp h
    exact .inl ⟨cause, rfl⟩

theorem inParts_of_effectOf {text : Text} {block : Block} {e : InjectionError}
    (h : effectOf text block = .error e) : InParts text e := by
  rcases effectOf_cases text block with
    ⟨-, hstyle⟩ | ⟨-, -, hremove⟩ | ⟨-, -, hmixed⟩ | ⟨-, hrepeated⟩
  · rw [hstyle] at h
    cases h
  · rw [hremove] at h
    cases h
  · rw [hmixed] at h
    cases h
    exact .inr (.inr rfl)
  · rw [hrepeated] at h
    cases h
    exact .inr (.inl rfl)

theorem inParts_of_ofParts {text : Text} {parts : Parts} {e : InjectionError}
    (h : ofParts text parts = .error e) : InParts text e := by
  unfold ofParts at h
  rw [bind_eq_error_iff] at h
  rcases h with hmedia | ⟨_, -, h⟩
  · exact inParts_of_parseMediaQueries hmedia
  rw [bind_eq_error_iff] at h
  rcases h with hselectors | ⟨_, -, h⟩
  · exact inParts_of_parseSelectors hselectors
  rw [bind_eq_error_iff] at h
  rcases h with hblock | ⟨block, -, h⟩
  · exact inParts_of_parseContent hblock
  rw [bind_eq_error_iff] at h
  rcases h with heffect | ⟨_, -, h⟩
  · exact inParts_of_effectOf heffect
  · cases h

/-- A text is either not recognized, and said to be so, or read from its parts. -/
theorem parse_cases (text : Text) :
    (recognizes text = false ∧ AdGuard.parse text = .error (.unrecognized text)) ∨
      (recognizes text = true ∧ ∀ e, AdGuard.parse text = .error e → InParts text e) := by
  unfold recognizes AdGuard.parse
  cases parts? text with
  | none => exact .inl ⟨rfl, rfl⟩
  | some parts => exact .inr ⟨rfl, fun _ => inParts_of_ofParts⟩

theorem parse_eq_unrecognized_iff {text raw : Text} :
    AdGuard.parse text = .error (.unrecognized raw) ↔ recognizes text = false ∧ raw = text := by
  rcases parse_cases text with ⟨hform, hparse⟩ | ⟨hform, herror⟩
  · simp [hform, hparse, eq_comm]
  · simp only [hform, Bool.true_eq_false, false_and, iff_false]
    intro hparse
    exact (herror _ hparse).ne_unrecognized raw rfl

end AdGuard

namespace UblockOrigin

theorem inParts_of_effectOf {text content : Text} {mark : Mark} {e : InjectionError}
    (h : effectOf mark content = .error e) : InParts text e := by
  cases mark with
  | remove => cases h
  | style => exact inParts_of_parseContent (map_eq_error_iff.mp h)

theorem inParts_of_ofParts {text : Text} {parts : Parts} {e : InjectionError}
    (h : ofParts parts = .error e) : InParts text e := by
  unfold ofParts at h
  rw [bind_eq_error_iff] at h
  rcases h with hselectors | ⟨_, -, h⟩
  · exact inParts_of_parseSelectors hselectors
  rw [bind_eq_error_iff] at h
  rcases h with heffect | ⟨_, -, h⟩
  · exact inParts_of_effectOf heffect
  · cases h

/-- A text is either not recognized, and gives none, or read from its parts. -/
theorem parse_cases (text : Text) :
    (recognizes text = false ∧ UblockOrigin.parse text = .ok none) ∨
      (recognizes text = true ∧ UblockOrigin.parse text ≠ .ok none ∧
        ∀ e, UblockOrigin.parse text = .error e → InParts text e) := by
  unfold recognizes UblockOrigin.parse
  cases parts? text with
  | none => exact .inl ⟨rfl, rfl⟩
  | some parts =>
    refine .inr ⟨rfl, ?found, fun e h => inParts_of_ofParts (map_eq_error_iff.mp h)⟩
    case found =>
      intro h
      obtain ⟨i, -, hi⟩ := map_eq_ok_iff.mp h
      cases hi

theorem parse_eq_none_iff {text : Text} :
    UblockOrigin.parse text = .ok none ↔ recognizes text = false := by
  rcases parse_cases text with ⟨hform, hparse⟩ | ⟨hform, hfound, -⟩
  · simp [hform, hparse]
  · simp [hform, hfound]

end UblockOrigin

/-! ## One form at most -/

/-- The one form ends with a brace and the other one with a parenthesis. -/
theorem recognizes_ublockOrigin_of_adGuard {text : Text} (h : AdGuard.recognizes text = true) :
    UblockOrigin.recognizes text = false := by
  cases hublock : UblockOrigin.recognizes text with
  | false => rfl
  | true =>
    have hbrace := AdGuard.getLast?_of_recognizes h
    rw [UblockOrigin.getLast?_of_recognizes hublock] at hbrace
    exact absurd hbrace (by decide)

/-- Reads a text in either form, and tries the uBlock Origin form first. -/
def parseUblockOriginFirst (text : Text) : Except InjectionError (Option Injection) :=
  if UblockOrigin.recognizes text then UblockOrigin.parse text
  else if AdGuard.recognizes text then (AdGuard.parse text).map some
  else .ok none

/-- The three ways to read a text, by the form it has. -/
theorem parse_cases (text : Text) :
    (AdGuard.recognizes text = true ∧ UblockOrigin.recognizes text = false ∧
        Injection.parse text = (AdGuard.parse text).map some) ∨
      (AdGuard.recognizes text = false ∧ UblockOrigin.recognizes text = true ∧
        Injection.parse text = UblockOrigin.parse text) ∨
      (AdGuard.recognizes text = false ∧ UblockOrigin.recognizes text = false ∧
        Injection.parse text = .ok none) := by
  cases hadguard : AdGuard.recognizes text with
  | true =>
    have hublock := recognizes_ublockOrigin_of_adGuard hadguard
    exact .inl ⟨rfl, hublock, parse_of_recognizes hadguard⟩
  | false =>
    cases hublock : UblockOrigin.recognizes text with
    | true => exact .inr (.inl ⟨rfl, rfl, by simp [Injection.parse, hadguard, hublock]⟩)
    | false => exact .inr (.inr ⟨rfl, rfl, by simp [Injection.parse, hadguard, hublock]⟩)

theorem parseUblockOriginFirst_eq (text : Text) :
    parseUblockOriginFirst text = Injection.parse text := by
  unfold parseUblockOriginFirst
  rcases parse_cases text with ⟨hadguard, hublock, hparse⟩ | ⟨hadguard, hublock, hparse⟩ |
    ⟨hadguard, hublock, hparse⟩
  all_goals simp [hadguard, hublock, hparse]

theorem parse_eq_none_iff {text : Text} :
    Injection.parse text = .ok none ↔
      AdGuard.recognizes text = false ∧ UblockOrigin.recognizes text = false := by
  rcases parse_cases text with ⟨hadguard, hublock, hparse⟩ | ⟨hadguard, hublock, hparse⟩ |
    ⟨hadguard, hublock, hparse⟩
  · rw [hparse, map_eq_ok_iff]
    simp [hadguard]
  · rw [hparse, UblockOrigin.parse_eq_none_iff]
    simp [hublock]
  · simp [hadguard, hublock, hparse]

theorem inParts_of_parse {text : Text} {e : InjectionError} (h : Injection.parse text = .error e) :
    InParts text e := by
  rcases parse_cases text with ⟨hadguard, -, hparse⟩ | ⟨-, hublock, hparse⟩ | ⟨-, -, hparse⟩
  · rw [hparse, map_eq_error_iff] at h
    rcases AdGuard.parse_cases text with ⟨hform, -⟩ | ⟨-, herror⟩
    · rw [hadguard] at hform
      cases hform
    · exact herror e h
  · rw [hparse] at h
    rcases UblockOrigin.parse_cases text with ⟨hform, -⟩ | ⟨-, -, herror⟩
    · rw [hublock] at hform
      cases hform
    · exact herror e h
  · rw [hparse] at h
    cases h

/-- The forms of a text and what reading it gives agree. -/
structure Unambiguous (text : Text) : Prop where
  /-- no text has both forms -/
  exclusive : ¬ (AdGuard.recognizes text = true ∧ UblockOrigin.recognizes text = true)
  /-- it does not matter which form is tried first -/
  order : parseUblockOriginFirst text = Injection.parse text
  /-- there is no injection exactly when the text has neither form -/
  none_iff : Injection.parse text = .ok none ↔
    AdGuard.recognizes text = false ∧ UblockOrigin.recognizes text = false
  /-- reading the AdGuard form says that the text has not this form exactly when it has not -/
  adGuard_iff : (∃ raw, AdGuard.parse text = .error (.unrecognized raw)) ↔
    AdGuard.recognizes text = false
  /-- reading the uBlock Origin form gives none exactly when the text has not this form -/
  ublockOrigin_iff : UblockOrigin.parse text = .ok none ↔ UblockOrigin.recognizes text = false
  /-- no text with one of the forms is said to have none -/
  ne_unrecognized : ∀ raw, Injection.parse text ≠ .error (.unrecognized raw)
  /-- the errors of writing are not errors of reading -/
  ne_unsupported : ∀ dialect, Injection.parse text ≠ .error (.unsupported dialect)
  ne_mediaQueryUnsupported : ∀ dialect,
    Injection.parse text ≠ .error (.mediaQueryUnsupported dialect)

/-- Every text has one form at most, and reading it tells which. -/
theorem parse_unambiguous (text : Text) : Unambiguous text where
  exclusive := by
    intro h
    rw [recognizes_ublockOrigin_of_adGuard h.1] at h
    cases h.2
  order := parseUblockOriginFirst_eq text
  none_iff := parse_eq_none_iff
  adGuard_iff := by simp [AdGuard.parse_eq_unrecognized_iff]
  ublockOrigin_iff := UblockOrigin.parse_eq_none_iff
  ne_unrecognized := fun raw h => (inParts_of_parse h).ne_unrecognized raw rfl
  ne_unsupported := fun dialect h => (inParts_of_parse h).ne_unsupported dialect rfl
  ne_mediaQueryUnsupported := fun dialect h =>
    (inParts_of_parse h).ne_mediaQueryUnsupported dialect rfl

end FilterList.Injection
