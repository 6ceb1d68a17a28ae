import FilterList.Css.Block
import FilterList.Proofs.Css.Token
import FilterList.Proofs.Text.Trim
set_option autoImplicit false

/-!
# Declaration blocks are read back as they were, or not

A value is cut off by a scan that knows quotations, escapes and brackets, and is then trimmed.
Trimming can take the blank that a final backslash escaped, and the semicolon that is written
behind the value is then escaped in its place.  This is the only way in which a block that was
read fails to be read back.
-/

namespace FilterList.Css

open Token Reader Text

namespace Declaration

/-! ## Values -/

theorem valueStep_eq_none {depth : Nat} {c : Char} (h : valueStep depth c = none) : depth = 0 := by
  cases depth with
  | zero => rfl
  | succ depth =>
    unfold valueStep at h
    split at h
    · cases h
    · split at h
      · cases h
      · split at h
        · cases h
        · cases h

/-- What one bare character can do to the depth of brackets in a value. -/
theorem valueStep_eq_some_iff {depth depth' : Nat} {c : Char} :
    valueStep depth c = some depth' ↔
      ((c = '(' ∨ c = '[') ∧ depth' = depth + 1) ∨ ((c = ')' ∨ c = ']') ∧ depth = depth' + 1) ∨
        (c ∉ ['(', '[', ')', ']'] ∧ (c = ';' ∨ c = '}' → depth ≠ 0) ∧ depth' = depth) := by
  unfold valueStep
  by_cases hopen : c = '(' ∨ c = '['
  · rcases hopen with rfl | rfl
    all_goals simp [eq_comm]
  by_cases hclose : c = ')' ∨ c = ']'
  · rcases hclose with rfl | rfl
    all_goals cases depth <;> simp [eq_comm]
  have hsign : c ∉ ['(', '[', ')', ']'] := by simpa [not_or, and_assoc] using And.intro hopen hclose
  by_cases hend : c = ';' ∨ c = '}'
  · cases depth <;> simp [hopen, hclose, hend, hsign, eq_comm]
  · simp [hopen, hclose, hend, hsign, eq_comm]

theorem inert_valueStep {p : Char → Bool}
    (hp : ['"', '\'', '\\', '(', ')', '[', ']', ';', '}'].any p = false) {c : Char}
    (hc : p c = true) : Inert valueStep c := by
  refine inert_of_signs ?_ hp hc
  intro c hmem st
  simp only [List.mem_cons, List.not_mem_nil, or_false, not_or] at hmem
  obtain ⟨h₁, h₂, h₃, h₄, h₅, h₆⟩ := hmem
  simp [valueStep, h₁, h₂, h₃, h₄, h₅, h₆]

theorem inert_of_isWhiteSpace {c : Char} (hc : isWhiteSpace c = true) : Inert valueStep c :=
  inert_valueStep (by decide) hc

/-- Letters of the flag, in either case. -/
def isFlagLetter (c : Char) : Bool := importantWord.contains c.toLower

theorem inert_of_isFlagLetter {c : Char} (hc : isFlagLetter c = true) : Inert valueStep c :=
  inert_valueStep (by decide) hc

theorem isFlagLetter_of_mem {s : Text} (h : eqIgnoreCase s importantWord = true) {c : Char}
    (hc : c ∈ s) : isFlagLetter c = true := by
  have hmap : s.map Char.toLower = importantWord := (eqIgnoreCase_iff_of_lower (by decide)).mp h
  have hmem : c.toLower ∈ s.map Char.toLower := List.mem_map_of_mem hc
  rw [hmap] at hmem
  simpa [isFlagLetter] using hmem

/-- What is taken off a written value at either end changes nothing for the scan. -/
theorem splitImportant_eq {written value : Text} {important : Bool}
    (h : splitImportant written = (value, important)) :
    (∃ tail, Text.trim written = value ++ tail ∧ ∀ c ∈ tail, Inert valueStep c) ∧
      trim value = value ∧ (important = false → value = trim written) := by
  unfold splitImportant at h
  cases hcut : cutLast '!' (trim written) with
  | none =>
    simp only [hcut, Prod.mk.injEq] at h
    obtain ⟨rfl, rfl⟩ := h
    exact ⟨⟨[], by simp, by simp⟩, trim_trim written, fun _ => rfl⟩
  | some cut =>
    simp only [hcut] at h
    by_cases hflag : eqIgnoreCase (trimStart cut.after) importantWord = true
    · rw [if_pos hflag, Prod.mk.injEq] at h
      obtain ⟨rfl, rfl⟩ := h
      obtain ⟨htext, -⟩ := cutLast_eq_some hcut
      have hbefore := trimEnd_append cut.before
      refine ⟨⟨(cut.before.reverse.takeWhile isWhiteSpace).reverse ++ '!' :: cut.after, ?_, ?_⟩,
        ?_, fun h => by cases h⟩
      · rw [← List.append_assoc, hbefore, htext]
      · intro c hc
        rw [List.mem_append, List.mem_cons] at hc
        rcases hc with hc | rfl | hc
        · exact inert_of_isWhiteSpace (allWhite_reverse_takeWhile _ c hc)
        · exact inert_valueStep (p := (· == '!')) (by decide) rfl
        · rw [← takeWhile_append_trimStart cut.after, List.mem_append] at hc
          rcases hc with hc | hc
          · exact inert_of_isWhiteSpace (allWhite_takeWhile _ c hc)
          · exact inert_of_isFlagLetter (isFlagLetter_of_mem hflag hc)
      · rw [trim_eq_self_iff]
        refine ⟨?_, fun c hc => getLast?_trimEnd hc⟩
        intro c hc
        refine head?_trim (s := written) ?_
        rw [htext, ← hbefore, List.append_assoc, List.head?_append, hc]
        rfl
    · rw [if_neg hflag, Prod.mk.injEq] at h
      obtain ⟨rfl, rfl⟩ := h
      exact ⟨⟨[], by simp, by simp⟩, trim_trim written, fun _ => rfl⟩

theorem pass_value {written value : Text} {important : Bool}
    (h : splitImportant written = (value, important)) {r : Nat × Quotation}
    (hw : pass valueStep 0 none written = some r) : pass valueStep 0 none value = some r := by
  obtain ⟨⟨tail, htail, hinert⟩, -, -⟩ := splitImportant_eq h
  rw [← pass_trim (fun _ => inert_of_isWhiteSpace), htail,
    pass_append_inert hinert 0 Quotation.proper_none] at hw
  exact hw

theorem splitImportant_congr {s t : Text} (h : trim s = trim t) :
    splitImportant s = splitImportant t := by
  rw [splitImportant, splitImportant, h]

/-- A value is found where the scan comes to rest outside of all brackets and quotations, before a
character that ends it. -/
theorem spanValue_append {written : Text} (hpass : pass valueStep 0 none written = some (0, none))
    (heven : endsEscaping written = false) {c : Char} (hc : c = ';' ∨ c = '}') (t : Text) :
    spanValue (written ++ c :: t) = (written, c :: t) := by
  have hstop : breakBare valueStep 0 none (c :: t) = ([], c :: t) := by
    rcases hc with rfl | rfl
    all_goals
      rw [breakBare_cons (by decide)]
      rfl
  rw [spanValue, breakBare_append_of_pass hpass heven, hstop, List.append_nil]

/-- What ends a value is refused outside of all brackets, so the value is passed and closes them. -/
theorem pass_of_spanValue {t written rest : Text} {c : Char}
    (h : spanValue t = (written, c :: rest)) :
    pass valueStep 0 none written = some (0, none) ∧ endsEscaping written = false := by
  obtain ⟨depth, hpass, heven, -, hstep⟩ := pass_of_breakBare h
  rw [valueStep_eq_none hstep] at hpass
  exact ⟨hpass, heven⟩

/-! ## Declarations that were read -/

/-- What holds of every declaration that was read. -/
structure WellFormed (d : Declaration) : Prop where
  name : IsName d.property
  passes : pass valueStep 0 none d.value = some (0, none)
  trimmed : trim d.value = d.value
  plain : d.important = false → splitImportant d.value = (d.value, false)
  filled : d.value ≠ [] ∨ isCustomProperty d.property = true

theorem reader_eq_done_iff {s rest : Text} {d : Declaration} :
    Declaration.reader s = .done d rest ↔
      ∃ mid t, Token.name s = .done d.property mid ∧ skipBlank mid = ':' :: t ∧
        splitImportant (spanValue t).1 = (d.value, d.important) ∧ (spanValue t).2 = rest ∧
        (d.value ≠ [] ∨ isCustomProperty d.property = true) := by
  unfold Declaration.reader
  simp only [bind_eq_done_iff, expecting_eq_done_iff, blank_eq_done_iff, committed_eq_done_iff,
    char_eq_done_iff]
  constructor
  · intro h
    obtain ⟨property, mid, hname, _, _, rfl, _, t, hcolon, written, r, hwritten, h⟩ := h
    cases hwritten
    cases hsplit : splitImportant (spanValue t).1 with
    | mk value important =>
      simp only [hsplit] at h
      by_cases hempty : (value.isEmpty && !isCustomProperty property) = true
      · rw [if_pos hempty, committed_eq_done_iff] at h
        exact absurd h fail_ne_done
      · rw [if_neg hempty, pure_eq_done_iff] at h
        obtain ⟨rfl, rfl⟩ := h
        refine ⟨mid, t, hname, hcolon, hsplit, rfl, ?_⟩
        cases hvalue : value with
        | nil =>
          right
          simpa [hvalue] using hempty
        | cons c value => exact .inl (by simp)
  · intro h
    obtain ⟨mid, t, hname, hcolon, hsplit, hrest, hfilled⟩ := h
    refine ⟨d.property, mid, hname, (), _, rfl, (), t, hcolon, (spanValue t).1, _, rfl, ?_⟩
    have hempty : (d.value.isEmpty && !isCustomProperty d.property) = false := by
      rcases hfilled with hvalue | hcustom
      · simp [hvalue]
      · simp [hcustom]
    simp only [hsplit, hempty, Bool.false_eq_true, if_false, pure_eq_done_iff]
    exact ⟨trivial, hrest⟩

theorem endReader_eq_done_iff {s rest : Text} {u : Unit} :
    endReader s = .done u rest ↔ s = ';' :: rest ∨ ∃ t, s = '}' :: t ∧ rest = s := by
  unfold endReader
  split
  · simp
  · simp [eq_comm]
  · next hsemicolon hbrace =>
    simp only [reduceCtorEq, false_iff, not_or, not_exists, not_and]
    constructor
    · intro hs
      exact absurd hs (hsemicolon rest)
    · intro t hs
      exact absurd hs (hbrace t)

theorem itemReader_eq_done_iff {s rest : Text} {d : Declaration} :
    itemReader s = .done d rest ↔
      beginsWith '}' (skipFiller s) = false ∧
        ∃ mid, Declaration.reader (skipFiller s) = .done d mid ∧
          endReader mid = .done () rest := by
  unfold itemReader
  simp only [bind_eq_done_iff, lookingAt_eq_done_iff]
  have hfiller : ∀ {u : Unit} {t : Text}, Token.filler s = .done u t ↔ skipFiller s = t :=
    Reader.skip_eq_done_iff
  constructor
  · intro h
    obtain ⟨_, _, hskip, b, _, ⟨hb, rfl⟩, h⟩ := h
    rw [hfiller] at hskip
    subst hskip
    cases b with
    | true =>
      rw [if_pos rfl] at h
      exact absurd h fail_ne_done
    | false =>
      simp only [Bool.false_eq_true, if_false, bind_eq_done_iff, noting_eq_done_iff,
        committed_eq_done_iff, pure_eq_done_iff] at h
      obtain ⟨_, mid, hread, _, _, hend, rfl, rfl⟩ := h
      exact ⟨hb, mid, hread, hend⟩
  · intro h
    obtain ⟨hb, mid, hread, hend⟩ := h
    refine ⟨(), _, hfiller.mpr rfl, false, _, ⟨hb, rfl⟩, ?_⟩
    simp only [Bool.false_eq_true, if_false, bind_eq_done_iff, noting_eq_done_iff,
      committed_eq_done_iff, pure_eq_done_iff]
    exact ⟨d, mid, hread, (), rest, hend, rfl, rfl⟩

/-- What an item of a block takes off a text, and what it says of the declaration. -/
theorem itemReader_sound : Sound (fun u d => u ≠ [] ∧ d.WellFormed) itemReader := by
  intro s d rest h
  rw [itemReader_eq_done_iff] at h
  obtain ⟨-, mid, hread, hend⟩ := h
  rw [reader_eq_done_iff] at hread
  obtain ⟨mid', t, hname, hcolon, hsplit, hmid, hfilled⟩ := hread
  obtain ⟨hskip, hproperty, -⟩ := name_sound hname
  obtain ⟨g, hs, -⟩ := exists_gaps_append_skipGaps isFiller s
  obtain ⟨w, hw, -⟩ := exists_gap_append_skipBlank mid'
  have happ : (spanValue t).1 ++ (spanValue t).2 = t := breakBare_append valueStep 0 none t
  have hwritten : pass valueStep 0 none (spanValue t).1 = some (0, none) := by
    obtain ⟨c, r, hcr⟩ : ∃ c r, (spanValue t).2 = c :: r := by
      rw [endReader_eq_done_iff] at hend
      rcases hend with hend | ⟨r, hend, -⟩
      · exact ⟨_, _, by rw [hmid, hend]⟩
      · exact ⟨_, _, by rw [hmid, hend]⟩
    have hspan : spanValue t = ((spanValue t).1, c :: r) := Prod.ext rfl hcr
    exact (pass_of_spanValue hspan).1
  obtain ⟨-, htrimmed, hplain⟩ := splitImportant_eq hsplit
  have hwf : d.WellFormed := by
    refine ⟨hproperty, pass_value hsplit hwritten, htrimmed, ?_, hfilled⟩
    intro himportant
    have hvalue := hplain himportant
    rw [splitImportant_congr (t := (spanValue t).1) (by rw [hvalue, trim_trim]), hsplit,
      himportant]
  have htext : s = g ++ (d.property ++ (w ++ ':' :: ((spanValue t).1 ++ mid))) := by
    rw [hs, ← skipFiller, hskip, hw, hcolon, ← hmid, happ]
  rw [endReader_eq_done_iff] at hend
  rcases hend with rfl | ⟨r, -, rfl⟩
  · refine ⟨g ++ (d.property ++ (w ++ ':' :: ((spanValue t).1 ++ [';']))), ?_, by simp, hwf⟩
    rw [htext]
    simp
  · refine ⟨g ++ (d.property ++ (w ++ ':' :: (spanValue t).1)), ?_, by simp, hwf⟩
    rw [htext]
    simp

theorem progress_itemReader : Progress itemReader :=
  progress_of_sound itemReader_sound fun _ _ h => h.1

theorem wellFormed_of_many {s rest : Text} {ds : List Declaration}
    (h : many itemReader s = .done ds rest) : ∀ d ∈ ds, d.WellFormed := by
  induction ds generalizing s with
  | nil => simp
  | cons d ds ih =>
    rw [many_eq_done_cons_iff progress_itemReader] at h
    obtain ⟨mid, hitem, hrest⟩ := h
    obtain ⟨-, -, -, hd⟩ := itemReader_sound s d mid hitem
    intro e he
    rcases List.mem_cons.mp he with rfl | he
    · exact hd
    · exact ih hrest e he

/-! ## Declarations that are written -/

/-- The blanks that are written before a declaration. -/
def IsPad (pad : Text) : Prop := pad = [] ∨ pad = [' ']

/-- What may stand between the declarations of a block. -/
abbrev IsFiller (s : Text) : Prop := Gaps isFiller s

theorem skipFiller_append {f : Text} (hf : IsFiller f) (s : Text) :
    skipFiller (f ++ s) = skipFiller s := skipGaps_append (by decide) hf s

theorem IsPad.isFiller {pad : Text} (hpad : IsPad pad) : IsFiller pad := by
  rcases hpad with rfl | rfl
  · exact .nil
  · exact .char rfl .nil

theorem not_filler_of_isNameChar {c : Char} (hc : isNameChar c = true) :
    c ≠ '/' ∧ isFiller c = false := by
  constructor
  · intro h
    rw [h] at hc
    exact absurd hc (by decide)
  · cases hf : isFiller c with
    | false => rfl
    | true =>
      rw [isFiller, Bool.or_eq_true, beq_iff_eq] at hf
      rcases hf with hb | rfl
      · rw [isNameChar_of_isBlank hb] at hc
        cases hc
      · exact absurd hc (by decide)

theorem skipFiller_cons {c : Char} (hc : c ≠ '/' ∧ isFiller c = false) (s : Text) :
    skipFiller (c :: s) = c :: s := by
  rw [skipFiller, skipGaps_cons hc.1, if_neg (by simp [hc.2])]

theorem skipFiller_name {n : Text} (hn : IsName n) (t : Text) : skipFiller (n ++ t) = n ++ t := by
  obtain ⟨c, m, rfl, hc⟩ := hn.exists_cons
  rw [List.cons_append]
  rcases hc with hc | rfl
  · exact skipFiller_cons (not_filler_of_isNameChar hc) _
  · exact skipFiller_cons (by decide) _

/-- A declaration does not begin with the brace that closes a block. -/
theorem beginsWith_name {n : Text} (hn : IsName n) (t : Text) :
    beginsWith '}' (n ++ t) = false := by
  obtain ⟨c, m, rfl, hc⟩ := hn.exists_cons
  have hne : c ≠ '}' := by
    intro h
    subst h
    rcases hc with hc | hc
    all_goals exact absurd hc (by decide)
  simp [beginsWith, hne]

/-- Without white space in front, a name and the colon behind it still begin with what is no
filler. -/
theorem exists_trimStart_name {n : Text} (hn : NameChars n) (t : Text) :
    ∃ c s, trimStart (n ++ ':' :: t) = c :: s ∧ c ≠ '/' ∧ isFiller c = false := by
  induction hn with
  | nil => exact ⟨':', t, trimStart_eq_self fun c hc => by cases hc; rfl, by decide⟩
  | @char c s hc _ ih =>
    cases hwhite : isWhiteSpace c with
    | true =>
      have hdrop : trimStart (c :: (s ++ ':' :: t)) = trimStart (s ++ ':' :: t) := by
        rw [trimStart, List.dropWhile_cons, if_pos hwhite]
        rfl
      rw [List.cons_append, hdrop]
      exact ih
    | false =>
      refine ⟨c, s ++ ':' :: t, trimStart_eq_self fun d hd => ?_, not_filler_of_isNameChar hc⟩
      cases hd
      exact hwhite
  | @escape c s _ _ =>
    exact ⟨'\\', c :: (s ++ ':' :: t), trimStart_eq_self fun d hd => by cases hd; rfl, by decide⟩

/-- What is written behind the colon of a declaration, without the semicolon. -/
def renderValue (d : Declaration) : Text :=
  ' ' :: d.value ++ (if d.important then " !important".toList else [])

theorem render_eq (d : Declaration) :
    d.render = d.property ++ ':' :: (d.renderValue ++ [';']) := by
  simp only [Declaration.render, renderValue, List.append_assoc, List.cons_append, List.nil_append]

/-- The flag as it is written behind a value. -/
theorem splitImportant_append_flag {written pre : Text}
    (h : trim written = pre ++ '!' :: importantWord) :
    splitImportant written = (trimEnd pre, true) := by
  have hcut : cutLast '!' (trim written) = some ⟨pre, importantWord⟩ := by
    rw [h, cutLast_append (by decide)]
  have hstart : trimStart importantWord = importantWord := by decide
  rw [splitImportant]
  simp only [hcut, hstart, eqIgnoreCase_self, if_true]

theorem splitImportant_renderValue {d : Declaration} (hd : d.WellFormed) :
    splitImportant d.renderValue = (d.value, d.important) := by
  cases himportant : d.important with
  | false =>
    have htrim : trim d.renderValue = trim d.value := by
      rw [renderValue, himportant]
      simpa using trim_white_append allWhite_blank d.value
    rw [splitImportant_congr htrim, hd.plain himportant]
  | true =>
    have hrender : d.renderValue = [' '] ++ (d.value ++ ' ' :: '!' :: importantWord) := by
      rw [renderValue, himportant]
      rfl
    cases hvalue : d.value with
    | nil =>
      have htrim : trim d.renderValue = [] ++ '!' :: importantWord := by
        rw [hrender, hvalue]
        decide
      rw [splitImportant_append_flag htrim, trimEnd_nil]
    | cons c v =>
      have htrim : trim d.renderValue = (d.value ++ [' ']) ++ '!' :: importantWord := by
        have hflag : trim ('!' :: importantWord) = '!' :: importantWord := by decide
        have hbetween := trim_between hd.trimmed (by simp [hvalue]) hflag (by simp) [' ']
        rw [hrender, trim_white_append allWhite_blank, ← hbetween, List.append_assoc]
        rfl
      rw [splitImportant_append_flag htrim, trimEnd_append_white allWhite_blank,
        trimEnd_eq_self (trim_eq_self_iff.mp hd.trimmed).2, hvalue]

theorem isFlag_inert {d : Declaration} :
    ∀ c ∈ (if d.important then " !important".toList else []), Inert valueStep c := by
  cases d.important with
  | false => simp
  | true =>
    have hflag : " !important".toList.all
        (fun c => isWhiteSpace c || c == '!' || isFlagLetter c) = true := by decide
    intro c hc
    exact inert_valueStep (p := fun c => isWhiteSpace c || c == '!' || isFlagLetter c) (by decide)
      (List.all_eq_true.mp hflag c hc)

theorem pass_renderValue {d : Declaration} (hd : d.WellFormed) :
    pass valueStep 0 none d.renderValue = some (0, none) := by
  have hblank : ∀ c ∈ [' '], Inert valueStep c := inert_blank fun _ => rfl
  rw [renderValue, pass_append_inert isFlag_inert 0 Quotation.proper_none]
  exact (pass_inert_append hblank 0 Quotation.proper_none d.value).trans hd.passes

/-- The semicolon that is written behind the declaration is escaped by what stands before it. -/
def escapesEnd (d : Declaration) : Bool := !d.important && endsEscaping d.value

theorem endsEscaping_renderValue (d : Declaration) :
    endsEscaping d.renderValue = d.escapesEnd := by
  rw [renderValue, escapesEnd]
  cases d.important with
  | false =>
    have := endsEscaping_cons_of_ne (c := ' ') (by decide) d.value
    simpa using this
  | true =>
    have hflag : " !important".toList = " !importan".toList ++ ['t'] := by decide
    rw [if_pos rfl, hflag, ← List.append_assoc]
    exact endsEscaping_concat_of_ne (by decide) _

theorem skipFiller_render {d : Declaration} (hd : d.WellFormed) {pad : Text} (hpad : IsPad pad)
    (t : Text) :
    skipFiller (pad ++ d.render ++ t) =
      d.property ++ ':' :: (d.renderValue ++ ';' :: t) := by
  rw [List.append_assoc, skipFiller_append hpad.isFiller, render_eq, List.append_assoc,
    skipFiller_name hd.name]
  simp

theorem name_render {d : Declaration} (hd : d.WellFormed) (t : Text) :
    Token.name (d.property ++ ':' :: t) = .done d.property (':' :: t) :=
  name_complete hd.name (endsName_cons (by decide) (by decide) t)

/-- A written declaration is read back if its semicolon is not escaped. -/
theorem itemReader_render {d : Declaration} (hd : d.WellFormed) (heven : d.escapesEnd = false)
    {pad : Text} (hpad : IsPad pad) (t : Text) :
    itemReader (pad ++ d.render ++ t) = .done d t := by
  have hspan : spanValue (d.renderValue ++ ';' :: t) = (d.renderValue, ';' :: t) :=
    spanValue_append (pass_renderValue hd) (by rw [endsEscaping_renderValue, heven]) (.inl rfl) t
  rw [itemReader_eq_done_iff, skipFiller_render hd hpad]
  constructor
  · exact beginsWith_name hd.name _
  · refine ⟨';' :: t, ?_, rfl⟩
    rw [reader_eq_done_iff]
    exact ⟨_, _, name_render hd _, tight_cons (by decide) (by decide) _,
      by rw [hspan]; exact splitImportant_renderValue hd, by rw [hspan], hd.filled⟩

/-- If its semicolon is escaped, the value is read with the semicolon in it. -/
theorem escapesEnd_eq_false_of_itemReader {d : Declaration} (hd : d.WellFormed) {pad : Text}
    (hpad : IsPad pad) {t rest : Text} (h : itemReader (pad ++ d.render ++ t) = .done d rest) :
    d.escapesEnd = false := by
  cases hodd : d.escapesEnd with
  | false => rfl
  | true =>
    rw [itemReader_eq_done_iff, skipFiller_render hd hpad] at h
    obtain ⟨-, mid, hread, -⟩ := h
    obtain ⟨_, t', hname, hcolon, hsplit, -, -⟩ := reader_eq_done_iff.mp hread
    rw [name_render hd] at hname
    cases hname
    have hcolon' : ':' :: (d.renderValue ++ ';' :: t) = ':' :: t' :=
      (tight_cons (by decide) (by decide) _).symm.trans hcolon
    rw [← (List.cons.inj hcolon').2] at hsplit
    have hspan := breakBare_append_cons_of_pass (pass_renderValue hd)
      (by rw [endsEscaping_renderValue, hodd]) ';' t
    rw [spanValue, hspan] at hsplit
    have himportant : d.important = false := by
      simp only [escapesEnd, Bool.and_eq_true, Bool.not_eq_true'] at hodd
      exact hodd.1
    have hvalue := (splitImportant_eq hsplit).2.2 himportant
    -- the value would hold one semicolon more than it holds
    have hcount := congrArg (List.count ';') hvalue
    rw [count_trim rfl, List.count_append, renderValue, List.count_append, List.count_cons,
      List.count_cons] at hcount
    simp only [beq_self_eq_true, if_true] at hcount
    omega

theorem readsBack_itemReader {d : Declaration} (hd : d.WellFormed) {pad : Text}
    (hpad : IsPad pad) :
    ReadsBack itemReader (fun d => pad ++ d.render) (fun d => d.escapesEnd = false)
      (fun _ => True) d := by
  intro t rest _
  constructor
  · intro h
    have heven := escapesEnd_eq_false_of_itemReader hd hpad h
    rw [itemReader_render hd heven hpad] at h
    cases h
    exact ⟨heven, rfl⟩
  · intro h
    rw [h.2]
    exact itemReader_render hd h.1 hpad t

/-- Written declarations are read back exactly if none of their semicolons is escaped. -/
theorem many_itemReader_render_iff {ds : List Declaration} (hne : ds ≠ [])
    (hds : ∀ d ∈ ds, d.WellFormed) {pad : Text} (hpad : IsPad pad) {t : Text}
    (ht : Refuses itemReader t) (rest : Text) :
    many itemReader (pad ++ List.intercalate [' '] (ds.map Declaration.render) ++ t) =
        .done ds rest ↔ (∀ d ∈ ds, d.escapesEnd = false) ∧ rest = t := by
  cases ds with
  | nil => exact absurd rfl hne
  | cons d ds =>
    have htext : pad ++ List.intercalate [' '] ((d :: ds).map Declaration.render) ++ t =
        pad ++ d.render ++ ((ds.map fun d => [' '] ++ d.render).flatten ++ t) := by
      rw [List.map_cons, intercalate_singleton_cons, List.map_map]
      simp only [List.append_assoc]
      rfl
    have hothers : many itemReader ((ds.map fun d => [' '] ++ d.render).flatten ++ t) =
        .done ds rest ↔ (∀ e ∈ ds, e.escapesEnd = false) ∧ rest = t :=
      many_readsBack progress_itemReader
        (fun e he => readsBack_itemReader (hds e (by simp [he])) (.inr rfl))
        (fun _ _ _ => trivial) trivial ht rest
    rw [htext]
    exact many_cons_readsBack progress_itemReader (readsBack_itemReader (hds d (by simp)) hpad)
      trivial hothers

end Declaration

/-! ## Blocks -/

namespace Block

theorem reader_eq_done_iff {s rest : Text} {b : Block} :
    Block.reader s = .done b rest ↔
      ∃ t mid r, skipBlank s = '{' :: t ∧ many Declaration.itemReader t = .done b.declarations mid ∧
        skipFiller mid = '}' :: r ∧ skipBlank r = rest := by
  unfold Block.reader
  have hfiller : ∀ {u : Unit} {s t : Text}, Token.filler s = .done u t ↔ skipFiller s = t :=
    Reader.skip_eq_done_iff
  simp only [bind_eq_done_iff, blank_eq_done_iff, expecting_eq_done_iff, char_eq_done_iff, hfiller,
    pure_eq_done_iff]
  constructor
  · intro h
    obtain ⟨_, _, rfl, _, t, hopen, ds, mid, hmany, _, _, rfl, _, r, hclose, _, _, rfl, rfl,
      rfl⟩ := h
    exact ⟨t, mid, r, hopen, hmany, hclose, rfl⟩
  · intro h
    obtain ⟨t, mid, r, hopen, hmany, hclose, rfl⟩ := h
    exact ⟨(), _, rfl, (), t, hopen, b.declarations, mid, hmany, (), _, rfl, (), r, hclose, (), _,
      rfl, rfl, rfl⟩

theorem wellFormed_of_parse {t : Text} {b : Block} (h : Block.parse t = .ok b) :
    ∀ d ∈ b.declarations, d.WellFormed := by
  rw [Block.parse, Reader.parseAs_eq_ok_iff, reader_eq_done_iff] at h
  obtain ⟨_, _, _, -, hmany, -, -⟩ := h
  exact Declaration.wellFormed_of_many hmany

/-- A block is read from what stands between its braces. -/
theorem parse_braced_iff {content : Text} {b : Block} :
    Block.parse ('{' :: content ++ ['}']) = .ok b ↔
      ∃ mid r, many Declaration.itemReader (content ++ ['}']) = .done b.declarations mid ∧
        skipFiller mid = '}' :: r ∧ skipBlank r = [] := by
  have hskip : skipBlank ('{' :: content ++ ['}']) = '{' :: (content ++ ['}']) :=
    tight_cons (by decide) (by decide) _
  rw [Block.parse, Reader.parseAs_eq_ok_iff, reader_eq_done_iff, hskip]
  constructor
  · intro h
    obtain ⟨_, mid, r, hopen, hmany, hclose, hr⟩ := h
    cases hopen
    exact ⟨mid, r, hmany, hclose, hr⟩
  · intro h
    obtain ⟨mid, r, hmany, hclose, hr⟩ := h
    exact ⟨_, mid, r, rfl, hmany, hclose, hr⟩

/-- A block without a declaration holds nothing but a gap. -/
theorem gaps_of_parse_empty {content : Text} {b : Block}
    (h : Block.parse ('{' :: content ++ ['}']) = .ok b) (hnil : b.declarations = []) :
    Gaps isFiller content := by
  rw [parse_braced_iff, hnil] at h
  obtain ⟨mid, r, hmany, hclose, hr⟩ := h
  rw [many_eq_done_nil_iff Declaration.progress_itemReader] at hmany
  have hmid : content ++ ['}'] = mid := hmany.1.symm
  obtain ⟨g, hg, hgap⟩ := exists_gaps_append_skipGaps isFiller mid
  obtain ⟨w, hw, hwgap⟩ := exists_gap_append_skipBlank r
  rw [← skipFiller, hclose, ← hmid] at hg
  rw [hr, List.append_nil] at hw
  subst hw
  -- the brace that closes the block is the last one, or else it would stand in a gap
  cases r with
  | nil =>
    rw [List.append_inj_left' hg rfl]
    exact hgap
  | cons c r =>
    have hlast : (c :: r).getLast? = some '}' := by
      have hends : (g ++ '}' :: c :: r).getLast? = some '}' := by rw [← hg, List.getLast?_concat]
      rw [List.getLast?_append, List.getLast?_cons_cons] at hends
      cases hr : (c :: r).getLast? with
      | none => simp at hr
      | some d =>
        rw [hr] at hends
        exact hends
    rcases hwgap.getLast hlast with hb | hb
    all_goals exact absurd hb (by decide)

theorem refuses_close {f : Text} (hf : Declaration.IsFiller f) (t : Text) :
    Refuses Declaration.itemReader (f ++ '}' :: t) := by
  have hskip : Token.filler (f ++ '}' :: t) = .done () ('}' :: t) := by
    rw [Token.filler, Reader.skip_eq_done_iff, Declaration.skipFiller_append hf]
    exact skipGaps_cons (by decide) t
  have hlook : lookingAt '}' ('}' :: t) = .done true ('}' :: t) := rfl
  exact refuses_bind_of_done hskip (refuses_bind_of_done hlook (refuses_fail _))

/-- Between braces, filler and nothing else is read as a block without declarations. -/
theorem parse_braced_empty_iff {content : Text} :
    (∃ b, Block.parse ('{' :: content ++ ['}']) = .ok b ∧ b.declarations = []) ↔
      Declaration.IsFiller content := by
  constructor
  · intro h
    obtain ⟨b, hb, hnil⟩ := h
    exact gaps_of_parse_empty hb hnil
  · intro h
    have hmany : many Declaration.itemReader (content ++ ['}']) = .done [] (content ++ ['}']) :=
      (many_eq_done_nil_iff Declaration.progress_itemReader).mpr ⟨rfl, refuses_close h []⟩
    have hclose : skipFiller (content ++ ['}']) = ['}'] := by
      rw [Declaration.skipFiller_append h]
      rfl
    exact ⟨⟨[]⟩, parse_braced_iff.mpr ⟨_, [], hmany, hclose, rfl⟩, rfl⟩

/-- Between braces, written declarations are read back exactly if none of their semicolons is
escaped. -/
theorem parse_renderDeclarations_iff {b : Block} (hne : b.declarations ≠ [])
    (hwf : ∀ d ∈ b.declarations, d.WellFormed) {pad pad' : Text} (hpad : Declaration.IsPad pad)
    (hpad' : Declaration.IsPad pad') :
    Block.parse ('{' :: (pad ++ b.renderDeclarations ++ pad') ++ ['}']) = .ok b ↔
      ∀ d ∈ b.declarations, d.escapesEnd = false := by
  have htext : pad ++ b.renderDeclarations ++ pad' ++ ['}'] =
      pad ++ List.intercalate [' '] (b.declarations.map Declaration.render) ++
        (pad' ++ ['}']) := by
    simp [renderDeclarations]
  have hmany :=
    Declaration.many_itemReader_render_iff hne hwf hpad (refuses_close hpad'.isFiller [])
  rw [parse_braced_iff, htext]
  constructor
  · intro h
    obtain ⟨mid, r, hread, -, -⟩ := h
    exact ((hmany mid).mp hread).1
  · intro h
    refine ⟨pad' ++ ['}'], [], (hmany _).mpr ⟨h, rfl⟩, ?_, rfl⟩
    rw [Declaration.skipFiller_append hpad'.isFiller]
    rfl

theorem renderDeclarations_cons (d : Declaration) (ds : List Declaration) :
    renderDeclarations ⟨d :: ds⟩ =
      d.property ++ ':' :: (d.renderValue ++ ';' :: (ds.map fun d => ' ' :: d.render).flatten) := by
  rw [renderDeclarations, List.map_cons, intercalate_singleton_cons, Declaration.render_eq,
    List.map_map]
  simp only [List.append_assoc, List.cons_append, List.nil_append]
  rfl

/-- Written declarations are not blank, even when they are trimmed. -/
theorem skipFiller_trim_renderDeclarations {b : Block} (hne : b.declarations ≠ [])
    (hwf : ∀ d ∈ b.declarations, d.WellFormed) : skipFiller (trim b.renderDeclarations) ≠ [] := by
  obtain ⟨n, z, hn, htext⟩ : ∃ n z, NameChars n ∧ b.renderDeclarations = n ++ ':' :: z := by
    obtain ⟨ds⟩ := b
    cases ds with
    | nil => exact absurd rfl hne
    | cons d ds => exact ⟨_, _, (hwf d (by simp)).name.1, renderDeclarations_cons d ds⟩
  obtain ⟨c, s, hstart, hc⟩ := Declaration.exists_trimStart_name hn z
  have hend := trimEnd_append (c :: s)
  rw [trim, htext, hstart]
  cases htrim : trimEnd (c :: s) with
  | nil =>
    rw [htrim, List.nil_append] at hend
    have hwhite : isWhiteSpace c = true := by
      apply allWhite_reverse_takeWhile (c :: s) c
      rw [hend]
      simp
    rw [head?_trimStart (s := n ++ ':' :: z) (by rw [hstart]; rfl)] at hwhite
    cases hwhite
  | cons e r =>
    rw [htrim, List.cons_append] at hend
    rw [(List.cons.inj hend).1, Declaration.skipFiller_cons hc]
    simp

/-- Written declarations end with a semicolon. -/
theorem exists_renderDeclarations_concat {b : Block} (hne : b.declarations ≠ []) :
    ∃ x, b.renderDeclarations = x ++ [';'] := by
  have hothers : ∀ ds : List Declaration,
      ∃ x, ';' :: (ds.map fun d => ' ' :: d.render).flatten = x ++ [';'] := by
    intro ds
    induction ds with
    | nil => exact ⟨[], rfl⟩
    | cons d ds ih =>
      obtain ⟨x, hx⟩ := ih
      refine ⟨';' :: ' ' :: (d.property ++ ':' :: d.renderValue) ++ x, ?_⟩
      rw [List.append_assoc, ← hx, List.map_cons, List.flatten_cons, Declaration.render_eq]
      simp
  obtain ⟨ds⟩ := b
  cases ds with
  | nil => exact absurd rfl hne
  | cons d ds =>
    obtain ⟨x, hx⟩ := hothers ds
    refine ⟨d.property ++ ':' :: d.renderValue ++ x, ?_⟩
    rw [renderDeclarations_cons, hx]
    simp

/-- Trimmed, written declarations are not read back unless trimming did nothing: the name of the
first property would have lost its front. -/
theorem trim_renderDeclarations_of_parse {b : Block} (hne : b.declarations ≠ [])
    (hwf : ∀ d ∈ b.declarations, d.WellFormed)
    (h : Block.parse ('{' :: trim b.renderDeclarations ++ ['}']) = .ok b) :
    trim b.renderDeclarations = b.renderDeclarations := by
  obtain ⟨x, hlast⟩ := exists_renderDeclarations_concat hne
  obtain ⟨ds⟩ := b
  cases ds with
  | nil => exact absurd rfl hne
  | cons d ds =>
    obtain ⟨c, s, hstart, hc⟩ :=
      Declaration.exists_trimStart_name (hwf d (by simp)).name.1
        (d.renderValue ++ ';' :: (ds.map fun d => ' ' :: d.render).flatten)
    rw [← renderDeclarations_cons] at hstart
    have htrim : trim (renderDeclarations ⟨d :: ds⟩) = c :: s := by
      rw [trim, ← hstart, hlast, trimStart_append_cons rfl]
      exact trimEnd_eq_self fun e he => by rw [List.getLast?_concat] at he; cases he; rfl
    rw [parse_braced_iff, htrim, List.cons_append] at h
    obtain ⟨mid, r, hmany, -, -⟩ := h
    rw [many_eq_done_cons_iff Declaration.progress_itemReader] at hmany
    obtain ⟨_, hitem, -⟩ := hmany
    obtain ⟨-, _, hread, -⟩ := Declaration.itemReader_eq_done_iff.mp hitem
    rw [Declaration.skipFiller_cons hc] at hread
    obtain ⟨_, _, hname, -⟩ := Declaration.reader_eq_done_iff.mp hread
    obtain ⟨htext, hproperty, -⟩ := name_sound hname
    obtain ⟨e, m, hcons, -⟩ := hproperty.exists_cons
    rw [hcons] at htext
    have hhead : (renderDeclarations ⟨d :: ds⟩).head? = some c := by
      rw [renderDeclarations_cons, hcons, (List.cons.inj htext).1]
      rfl
    have hwhite := head?_trimStart (s := renderDeclarations ⟨d :: ds⟩) (by rw [hstart]; rfl)
    rw [htrim, ← hstart]
    exact trimStart_eq_self fun e he => by rw [hhead] at he; cases he; exact hwhite

/-! ## Whole blocks -/

theorem render_of_ne_nil {b : Block} (hne : b.declarations ≠ []) :
    b.render = '{' :: ([' '] ++ b.renderDeclarations ++ [' ']) ++ ['}'] := by
  rw [Block.render, if_neg (by simpa using hne)]
  simp

/-- A block that was read is written and read back exactly if no value without the flag ends in an
escape, which would take the semicolon behind it along. -/
theorem parse_render_iff_endsEscaping {t : Text} {b : Block} (h : Block.parse t = .ok b) :
    Block.parse b.render = .ok b ↔
      ∀ d ∈ b.declarations, d.important = false → endsEscaping d.value = false := by
  by_cases hnil : b.declarations = []
  · -- nothing is written but the braces
    obtain ⟨ds⟩ := b
    obtain rfl : ds = [] := hnil
    constructor
    · intro _ d hd
      cases hd
    · intro _
      exact Reader.parseAs_eq_ok_iff.mpr (by decide)
  · have hread := parse_renderDeclarations_iff hnil (wellFormed_of_parse h) (.inr rfl) (.inr rfl)
    rw [render_of_ne_nil hnil, hread]
    simp only [Declaration.escapesEnd, Bool.and_eq_false_imp, Bool.not_eq_true']

/-- Trimming took the blank that the backslash escaped.  In the first text the semicolon is then
written right behind the backslash, in the second one the flag stands between them. -/
theorem parse_render_iff_endsEscaping_trimmed :
    (∃ b, Block.parse "\x7b a: b\\ ; c: d \x7d".toList = .ok b ∧ Block.parse b.render ≠ .ok b) ∧
      ∃ b, Block.parse "\x7b a: b\\ ! important; c: \\\\ \x7d".toList = .ok b ∧
        Block.parse b.render = .ok b := by
  constructor
  · have hread : Block.parse "\x7b a: b\\ ; c: d \x7d".toList =
        .ok ⟨[⟨['a'], ['b', '\\'], false⟩, ⟨['c'], ['d'], false⟩]⟩ :=
      Reader.parseAs_eq_ok_iff.mpr (by decide +kernel)
    refine ⟨_, hread, fun hback => ?_⟩
    exact absurd ((parse_render_iff_endsEscaping hread).mp hback) (by decide)
  · have hread : Block.parse "\x7b a: b\\ ! important; c: \\\\ \x7d".toList =
        .ok ⟨[⟨['a'], ['b', '\\'], true⟩, ⟨['c'], ['\\', '\\'], false⟩]⟩ :=
      Reader.parseAs_eq_ok_iff.mpr (by decide +kernel)
    exact ⟨_, hread, (parse_render_iff_endsEscaping hread).mpr (by decide)⟩

end Block

end FilterList.Css
