import FilterList.Proofs.Text.Balanced
import FilterList.Proofs.Text.Trim
set_option autoImplicit false

/-!
# Brackets that match in kind

Every format counts the brackets of a text in a way of its own: some count round brackets only,
some let a bracket be closed by one of the other kind, some pass over a bracket that closes nothing.
A text in which each closing bracket is the awaited one suits them all, because the brackets that
are awaited determine every count.
-/

namespace FilterList.Text

/-! ## The brackets that are awaited -/

/-- The closing brackets that are awaited behind one bare character, innermost first.  A closing
bracket other than the awaited one is refused, and so is what `refuses` names. -/
def bracketStep (refuses : List Char → Char → Bool) (awaited : List Char) (c : Char) :
    Option (List Char) :=
  if refuses awaited c then none
  else if c = '(' then some (')' :: awaited)
  else if c = '[' then some (']' :: awaited)
  else if c = ')' ∨ c = ']' then
    match awaited with
    | [] => none
    | closer :: rest => if c = closer then some rest else none
  else some awaited

section

variable {refuses : List Char → Char → Bool}

/-- What one bare character can do to the brackets that are awaited. -/
theorem bracketStep_eq_some_iff {awaited awaited' : List Char} {c : Char} :
    bracketStep refuses awaited c = some awaited' ↔
      refuses awaited c = false ∧
        ((c = '(' ∧ awaited' = ')' :: awaited) ∨ (c = '[' ∧ awaited' = ']' :: awaited) ∨
          ((c = ')' ∨ c = ']') ∧ awaited = c :: awaited') ∨
            (c ∉ ['(', '[', ')', ']'] ∧ awaited' = awaited)) := by
  unfold bracketStep
  cases hrefused : refuses awaited c with
  | true => simp
  | false =>
    by_cases hround : c = '('
    · simp [hround, eq_comm]
    by_cases hsquare : c = '['
    · simp [hsquare, eq_comm]
    by_cases hclose : c = ')' ∨ c = ']'
    · cases awaited with
      | nil => simp [hround, hsquare, hclose]
      | cons closer rest =>
        by_cases hcloser : c = closer
        · subst hcloser
          simp [hround, hsquare, hclose, eq_comm]
        · simp [hround, hsquare, hclose, hcloser, eq_comm]
    · simp [hround, hsquare, hclose, eq_comm]

/-- Round brackets that match in kind match by themselves. -/
theorem groupStep_of_bracketStep {awaited awaited' : List Char} {c : Char}
    (h : bracketStep refuses awaited c = some awaited') :
    groupStep (awaited.count ')') c = some (awaited'.count ')') := by
  obtain ⟨-, ⟨rfl, rfl⟩ | ⟨rfl, rfl⟩ | ⟨rfl | rfl, rfl⟩ | ⟨hc, rfl⟩⟩ := bracketStep_eq_some_iff.mp h
  · simp [groupStep]
  · simp [groupStep]
  · simp [groupStep]
  · simp [groupStep]
  · simp only [List.mem_cons, not_or] at hc
    simp [groupStep, hc]

/-- What is awaited from before does not matter, if it does not matter to what is refused. -/
theorem bracketStep_append (hrefuses : ∀ st st' c, refuses st c = refuses st' c)
    {awaited awaited' : List Char} {c : Char} (h : bracketStep refuses awaited c = some awaited')
    (before : List Char) :
    bracketStep refuses (awaited ++ before) c = some (awaited' ++ before) := by
  obtain ⟨hfree, hmove⟩ := bracketStep_eq_some_iff.mp h
  rw [hrefuses awaited (awaited ++ before)] at hfree
  refine bracketStep_eq_some_iff.mpr ⟨hfree, ?_⟩
  obtain ⟨rfl, rfl⟩ | ⟨rfl, rfl⟩ | ⟨hclose, rfl⟩ | ⟨hc, rfl⟩ := hmove
  · exact .inl ⟨rfl, rfl⟩
  · exact .inr (.inl ⟨rfl, rfl⟩)
  · exact .inr (.inr (.inl ⟨hclose, rfl⟩))
  · exact .inr (.inr (.inr ⟨hc, rfl⟩))

end

/-! ## Text in brackets -/

/-- The text has no escape, its quotations are closed, its brackets match in kind, and nothing bare
is refused. -/
structure Bracketed (refuses : List Char → Char → Bool) (s : Text) : Prop where
  unescaped : '\\' ∉ s
  passes : pass (bracketStep refuses) [] none s = some ([], none)

instance (refuses : List Char → Char → Bool) (s : Text) : Decidable (Bracketed refuses s) :=
  decidable_of_iff ('\\' ∉ s ∧ pass (bracketStep refuses) [] none s = some ([], none))
    ⟨fun h => ⟨h.1, h.2⟩, fun h => ⟨h.1, h.2⟩⟩

theorem Bracketed.balanced {refuses : List Char → Char → Bool} {s : Text}
    (h : Bracketed refuses s) : Balanced s :=
  balanced_iff.mpr ⟨pass_of_simulation groupStep (·.count ')')
    (fun _ _ _ => groupStep_of_bracketStep) h.passes, endsEscaping_of_not_mem h.unescaped⟩

/-! ## Text that closes what it opens -/

/-- Refuses braces wherever they stand. -/
def anyBrace (_ : List Char) (c : Char) : Bool := c == '{' || c == '}'

/-- Wherever the text stands, it has no bare brace and closes all that it opens, brackets in
kind. -/
structure Closed (s : Text) : Prop where
  passes : ∀ awaited, pass (bracketStep anyBrace) awaited none s = some (awaited, none)
  even : endsEscaping s = false

theorem inert_anyBrace {p : Char → Bool}
    (hp : ['"', '\'', '\\', '(', '[', ')', ']', '{', '}'].any p = false) {c : Char}
    (hc : p c = true) : Inert (bracketStep anyBrace) c := by
  refine inert_of_signs ?_ hp hc
  intro c hmem awaited
  refine bracketStep_eq_some_iff.mpr ?_
  simp only [List.mem_cons, List.not_mem_nil, or_false, not_or] at hmem
  simp [anyBrace, hmem]

namespace Closed

theorem of_all {p : Char → Bool}
    (hp : ['"', '\'', '\\', '(', '[', ')', ']', '{', '}'].any p = false) {s : Text}
    (hs : s.all p = true) : Closed s := by
  have hinert : ∀ c ∈ s, Inert (bracketStep anyBrace) c := by
    intro c hc
    exact inert_anyBrace hp (List.all_eq_true.mp hs c hc)
  exact ⟨fun awaited => pass_of_inert hinert awaited Quotation.proper_none,
    endsEscaping_of_inert hinert⟩

theorem nil : Closed [] := of_all (p := fun _ => false) rfl rfl

theorem blank : Closed [' '] := of_all (p := (· == ' ')) (by decide) rfl

theorem append {s t : Text} (hs : Closed s) (ht : Closed t) : Closed (s ++ t) := by
  refine ⟨fun awaited => ?_, by rw [endsEscaping_append hs.even, ht.even]⟩
  rw [pass_append hs.even, hs.passes]
  exact ht.passes awaited

theorem of_bracketed {s : Text} (h : Bracketed anyBrace s) : Closed s := by
  refine ⟨fun awaited => ?_, endsEscaping_of_not_mem h.unescaped⟩
  exact pass_of_simulation (bracketStep anyBrace) (· ++ awaited)
    (fun _ _ _ hstep => bracketStep_append (fun _ _ _ => rfl) hstep awaited) h.passes

theorem quotation {inside : Text} (h : InQuotes '"' inside) : Closed ('"' :: inside ++ ['"']) := by
  refine ⟨fun awaited => ?_, endsEscaping_quotation rfl h []⟩
  rw [pass_quotation rfl h, pass_nil]

/-- A closed text in brackets of one kind is closed. -/
theorem enclosed {opener closer : Char} (hne : opener ≠ '\\' ∧ closer ≠ '\\')
    (hopen : ∀ awaited,
      advance (bracketStep anyBrace) awaited none opener = some (closer :: awaited, none))
    (hclose : ∀ awaited,
      advance (bracketStep anyBrace) (closer :: awaited) none closer = some (awaited, none))
    {s : Text} (h : Closed s) : Closed (opener :: s ++ [closer]) := by
  refine ⟨fun awaited => ?_, endsEscaping_concat_of_ne hne.2 _⟩
  rw [List.cons_append, pass_cons hne.1, hopen, Option.bind_some, pass_append h.even, h.passes,
    Option.bind_some, pass_cons hne.2, hclose]
  rfl

theorem round {s : Text} (h : Closed s) : Closed ('(' :: s ++ [')']) :=
  enclosed (by decide) (fun _ => rfl) (fun _ => rfl) h

theorem square {s : Text} (h : Closed s) : Closed ('[' :: s ++ [']']) :=
  enclosed (by decide) (fun _ => rfl) (fun _ => rfl) h

end Closed

/-! ## Text with firm ends -/

/-- A closed text that is not empty and has no white space at either end. -/
structure Solid (s : Text) : Prop where
  closed : Closed s
  ne_nil : s ≠ []
  trimmed : trim s = s

namespace Solid

theorem between {s t : Text} (hs : Solid s) {middle : Text} (hmiddle : Closed middle)
    (ht : Solid t) : Solid (s ++ middle ++ t) where
  closed := (hs.closed.append hmiddle).append ht.closed
  ne_nil := by simp [hs.ne_nil]
  trimmed := trim_between hs.trimmed hs.ne_nil ht.trimmed ht.ne_nil middle

theorem append {s t : Text} (hs : Solid s) (ht : Solid t) : Solid (s ++ t) := by
  simpa using hs.between .nil ht

/-- A character that is no bracket, brace, quote, backslash or white space. -/
theorem sign {c : Char}
    (hc : c ∉ ['"', '\'', '\\', '(', '[', ')', ']', '{', '}'] ∧ isWhiteSpace c = false) :
    Solid [c] where
  closed := by
    refine .of_all (p := (· == c)) (List.any_eq_false.mpr ?_) (by simp)
    intro d hd heq
    rw [beq_iff_eq] at heq
    exact hc.1 (heq ▸ hd)
  ne_nil := by simp
  trimmed := by
    rw [trim_eq_self_iff]
    simp [hc.2]

theorem of_trimmed_ends {opener closer : Char} {s : Text} (h : Closed (opener :: s ++ [closer]))
    (hopen : isWhiteSpace opener = false) (hclose : isWhiteSpace closer = false) :
    Solid (opener :: s ++ [closer]) where
  closed := h
  ne_nil := by simp
  trimmed := by
    rw [trim_eq_self_iff]
    refine ⟨fun c hc => ?_, fun c hc => ?_⟩
    · cases hc
      exact hopen
    · rw [List.getLast?_concat] at hc
      cases hc
      exact hclose

theorem round {s : Text} (h : Closed s) : Solid ('(' :: s ++ [')']) :=
  of_trimmed_ends h.round rfl rfl

theorem square {s : Text} (h : Closed s) : Solid ('[' :: s ++ [']']) :=
  of_trimmed_ends h.square rfl rfl

end Solid

end FilterList.Text
