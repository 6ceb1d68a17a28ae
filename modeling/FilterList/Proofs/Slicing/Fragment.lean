import FilterList.Css.Fragment
import FilterList.Proofs.Slicing.Reader
import FilterList.Proofs.Slicing.Scan
set_option autoImplicit false

/-!
# Style sheet fragments by offsets

Two productions cut their text by offsets: a group at its closing parenthesis, and the value of a
declaration where it ends and before its flag.  All others that can fault do so through these two.
-/

namespace FilterList.Css

open CheckedReader (ofReader ofChecked ofReader_bind ofReader_seq ofReader_map ofReader_committed
  ofReader_noting ofReader_expecting ofReader_either ofReader_many ofReader_separated
  ofReader_parseAs ofChecked_ok_bind)
open Text

/-! ## Groups -/

/-- Takes a parenthesised group and gives its content untouched. -/
def Token.checkedGroup : CheckedReader Text := fun s => do
  match ← closingOffset s 0 with
  | none => return .failed .soft s
  | some stop =>
    let rest ← sliceFrom s (stop + 1)
    let content ← slice s 1 stop
    return .done content rest

theorem Token.checkedGroup_eq : checkedGroup = ofReader group := by
  funext s
  have hclosing : closingOffset s 0 =
      .ok ((group? s).map fun parts => 0 + 1 + byteLength parts.1) :=
    closingOffset_append (List.nil_append s).symm rfl
  unfold checkedGroup ofReader group
  rw [hclosing, checked_ok_bind]
  cases hgroup : group? s with
  | none => rfl
  | some parts =>
    obtain ⟨hs, -⟩ := group?_eq_some_iff.mp hgroup
    have hopen : '('.utf8Size = 1 := rfl
    have hclose : ')'.utf8Size = 1 := rfl
    have hcontent : slice s 1 (0 + 1 + byteLength parts.1) = .ok parts.1 :=
      slice_of_eq ['('] (')' :: parts.2) hs rfl (by simp [hopen])
    have hrest : sliceFrom s (0 + 1 + byteLength parts.1 + 1) = .ok parts.2 :=
      sliceFrom_eq_ok_iff.mpr ⟨'(' :: parts.1 ++ [')'], by simp [hs],
        by simp [hopen, hclose, Nat.add_assoc]⟩
    simp only [Option.map_some, hcontent, hrest, checked_ok_bind, checked_pure]

/-! ## Declarations -/

namespace Declaration

/-- The depth of brackets after one bare character of a value; what ends the value is refused. -/
def checkedValueStep (depth : Nat) (c : Char) : Checked (Option Nat) :=
  if c = '(' ∨ c = '[' then return some (depth + 1)
  else if c = ')' ∨ c = ']' then
    if depth = 0 then return none
    else do
      let outer ← difference depth 1
      return some outer
  else if (c = ';' ∨ c = '}') ∧ depth = 0 then return none
  else return some depth

/-- The offset at which a value ends, which may be the end of the text. -/
def valueStop (s : Text) : Checked Nat := do
  let stop ← stopFrom checkedValueStep 0 none 0 s
  return stop.getD (byteLength s)

/-- Takes a value up to where it ends. -/
def checkedValueReader : CheckedReader Text := fun s => do
  let stop ← valueStop s
  let rest ← sliceFrom s stop
  let written ← sliceTo s stop
  return .done written rest

/-- Splits a written value into the value proper and whether it is flagged as important. -/
def checkedSplitImportant (written : Text) : Checked (Text × Bool) :=
  let value := trim written
  match (cutLast '!' value).map Cut.offset with
  | some mark => do
    let word ← sliceFrom value (mark + 1)
    if eqIgnoreCase (trimStart word) importantWord then
      let proper ← sliceTo value mark
      return (trimEnd proper, true)
    else return (value, false)
  | none => return (value, false)

/-- Takes a declaration without what ends it. -/
def checkedReader : CheckedReader Declaration := do
  let property ← ofReader (.expecting .propertyName Token.name)
  ofReader Token.blank
  ofReader (.expecting (.char ':') (.committed (.char ':')))
  let written ← checkedValueReader
  let (value, important) ← ofChecked (checkedSplitImportant written)
  if value.isEmpty && !isCustomProperty property then
    ofReader (.committed .fail)
  else
    return { property, value, important }

/-- Takes a declaration with what stands before it in a block and the semicolon behind it. -/
def checkedItemReader : CheckedReader Declaration := do
  ofReader Token.filler
  if ← ofReader (.lookingAt '}') then ofReader .fail
  else
    let declaration ← .noting .inDeclaration (.committed checkedReader)
    ofReader endReader
    return declaration

theorem checkedValueStep_eq (depth : Nat) (c : Char) :
    checkedValueStep depth c = .ok ((valueStep depth c).map id) := by
  unfold checkedValueStep valueStep
  by_cases hopen : c = '(' ∨ c = '['
  · simp [hopen]
  by_cases hclose : c = ')' ∨ c = ']'
  · cases depth with
    | zero => simp [hopen, hclose]
    | succ depth => simp [hopen, hclose, difference]
  · by_cases hend : c = ';' ∨ c = '}'
    · cases depth <;> simp [hopen, hclose, hend]
    · simp [hopen, hclose, hend]

theorem valueStop_eq (s : Text) : valueStop s = .ok (byteLength (spanValue s).1) := by
  have hscan := stopFrom_eq id checkedValueStep_eq 0 none 0 s
  have happend := breakBare_append valueStep 0 none s
  rw [id_eq] at hscan
  rw [valueStop, hscan, checked_ok_bind, spanValue]
  cases hbreak : breakBare valueStep 0 none s with
  | mk before tail =>
    cases tail with
    | nil =>
      rw [hbreak, List.append_nil] at happend
      obtain rfl : before = s := happend
      simp [breakOffset]
    | cons c after => simp [breakOffset]

theorem checkedValueReader_eq : checkedValueReader = ofReader valueReader := by
  funext s
  have happend : s = (spanValue s).1 ++ (spanValue s).2 :=
    (breakBare_append valueStep 0 none s).symm
  rw [checkedValueReader, valueStop_eq, checked_ok_bind, sliceFrom_of_eq happend rfl,
    sliceTo_of_eq happend rfl]
  rfl

theorem checkedSplitImportant_eq (written : Text) :
    checkedSplitImportant written = .ok (splitImportant written) := by
  unfold checkedSplitImportant splitImportant
  cases hcut : cutLast '!' (trim written) with
  | none => simp [hcut]
  | some cut =>
    obtain ⟨hvalue, -⟩ := cutLast_eq_some hcut
    have hword : sliceFrom (trim written) (cut.offset + 1) = .ok cut.after :=
      sliceFrom_behind hvalue
    have hproper : sliceTo (trim written) cut.offset = .ok cut.before := sliceTo_of_eq hvalue rfl
    simp only [hcut, Option.map_some, hword, hproper, checked_ok_bind, checked_pure]
    split <;> rfl

theorem checkedReader_eq : checkedReader = ofReader reader := by
  unfold checkedReader reader
  rw [checkedValueReader_eq]
  refine ofReader_bind fun property => ofReader_bind fun _ => ofReader_bind fun _ =>
    ofReader_bind fun written => ?_
  rw [checkedSplitImportant_eq, ofChecked_ok_bind]
  cases splitImportant written with
  | mk value important =>
    dsimp only
    split <;> rfl

theorem checkedItemReader_eq : checkedItemReader = ofReader itemReader := by
  unfold checkedItemReader itemReader
  rw [checkedReader_eq, ofReader_committed, ofReader_noting]
  refine ofReader_bind fun _ => ofReader_bind fun closes => ?_
  cases closes with
  | true => rfl
  | false => exact ofReader_bind fun declaration => ofReader_bind fun _ => rfl

end Declaration

namespace Block

/-- Takes a block with the blanks around it. -/
def checkedReader : CheckedReader Block := do
  ofReader Token.blank
  ofReader (.expecting (.char '{') (.char '{'))
  let declarations ← .many Declaration.checkedItemReader
  ofReader Token.filler
  ofReader (.char '}')
  ofReader Token.blank
  return { declarations }

/-- Reads a text that is a declaration block. -/
def checkedParse (text : Text) : Checked (Except SyntaxError Block) :=
  checkedReader.parseAs .block text

theorem checkedReader_eq : checkedReader = ofReader reader := by
  unfold checkedReader reader
  rw [Declaration.checkedItemReader_eq, ofReader_many]
  exact ofReader_bind fun _ => ofReader_bind fun _ => ofReader_bind fun declarations =>
    ofReader_bind fun _ => ofReader_bind fun _ => ofReader_bind fun _ => rfl

theorem checkedParse_eq (text : Text) : checkedParse text = .ok (parse text) := by
  rw [checkedParse, checkedReader_eq]
  exact ofReader_parseAs .block reader text

end Block

/-! ## Media queries -/

/-- Takes a group or a keyword. -/
def MediaPart.checkedReader : CheckedReader MediaPart :=
  .either (MediaPart.ofGroup <$> Token.checkedGroup) (ofReader (MediaPart.keyword <$> Token.name))

/-- Takes a query with the blanks before it. -/
def MediaQuery.checkedReader : CheckedReader MediaQuery := do
  ofReader Token.blank
  let first ← .expecting .mediaQuery MediaPart.checkedReader
  let others ← .many do
    ofReader Token.blank
    MediaPart.checkedReader
  return ⟨first :: others⟩

/-- Takes a list of queries and the blanks behind it. -/
def MediaQueryList.checkedReader : CheckedReader MediaQueryList := do
  let queries ← .separated Token.comma MediaQuery.checkedReader
  ofReader Token.blank
  return ⟨queries⟩

/-- Reads a text that is a list of media queries. -/
def MediaQueryList.checkedParse (text : Text) : Checked (Except SyntaxError MediaQueryList) :=
  checkedReader.parseAs .mediaQueryList text

theorem MediaPart.checkedReader_eq : checkedReader = ofReader reader := by
  rw [checkedReader, Token.checkedGroup_eq, ofReader_map, ofReader_either]
  rfl

theorem MediaQuery.checkedReader_eq : checkedReader = ofReader reader := by
  unfold checkedReader reader
  rw [MediaPart.checkedReader_eq, ofReader_expecting, ofReader_seq, ofReader_many]
  exact ofReader_bind fun _ => ofReader_bind fun first => ofReader_bind fun others => rfl

theorem MediaQueryList.checkedReader_eq : checkedReader = ofReader reader := by
  unfold checkedReader reader
  rw [MediaQuery.checkedReader_eq, ofReader_separated]
  exact ofReader_bind fun queries => ofReader_bind fun _ => rfl

theorem MediaQueryList.checkedParse_eq (text : Text) : checkedParse text = .ok (parse text) := by
  rw [checkedParse, checkedReader_eq]
  exact ofReader_parseAs .mediaQueryList reader text

end FilterList.Css
