import FilterList.Proofs.Text.Scan
set_option autoImplicit false

/-!
# Balanced text

The content of a group is found by counting brackets in one flat scan.  Here it is described the
other way, as a language: a balanced text is made of escapes, quotations, groups that are balanced
inside, and other characters.  `balanced_iff` says that the scan passes exactly these texts.
-/

namespace FilterList.Text

/-- The inside of a quotation that the quote `q` opened. -/
inductive InQuotes (q : Char) : Text → Prop
  | nil : InQuotes q []
  | escape (c : Char) {s : Text} : InQuotes q s → InQuotes q ('\\' :: c :: s)
  | char {c : Char} {s : Text} : c ≠ q → c ≠ '\\' → InQuotes q s → InQuotes q (c :: s)

/-- A text whose round brackets match, where escapes and quotations hide what they hold. -/
inductive Balanced : Text → Prop
  | nil : Balanced []
  | escape (c : Char) {s : Text} : Balanced s → Balanced ('\\' :: c :: s)
  | quotation {q : Char} {inside s : Text} : isQuote q = true → InQuotes q inside → Balanced s →
      Balanced (q :: inside ++ q :: s)
  | group {inside s : Text} : Balanced inside → Balanced s → Balanced ('(' :: inside ++ ')' :: s)
  | char {c : Char} {s : Text} : c ≠ '(' → c ≠ ')' → c ≠ '\\' → isQuote c = false → Balanced s →
      Balanced (c :: s)

/-! ## The scan passes every balanced text -/

theorem ne_backslash_of_isQuote {q : Char} (h : isQuote q = true) : q ≠ '\\' := by
  rintro rfl
  simp [isQuote] at h

/-- A quotation, from its opening quote to its closing one, changes no state. -/
theorem pass_quotation {σ : Type} {step : σ → Char → Option σ} {q : Char} {inside : Text}
    (hq : isQuote q = true) (h : InQuotes q inside) (st : σ) (t : Text) :
    pass step st none (q :: inside ++ q :: t) = pass step st none t := by
  have hopen : advance step st none q = some (st, some q) := by
    simp [advance, Quotation.bare, Quotation.next, hq]
  have hclose : advance step st (some q) q = some (st, none) := by
    simp [advance, Quotation.bare, Quotation.next]
  have hinside : pass step st (some q) (inside ++ q :: t) = pass step st none t := by
    induction h with
    | nil => rw [List.nil_append, pass_cons (ne_backslash_of_isQuote hq), hclose]; rfl
    | escape c _ ih => rw [List.cons_append, List.cons_append, pass_escape, ih]
    | @char c s hcq hc _ ih =>
      have hadv : advance step st (some q) c = some (st, some q) := by
        simp [advance, Quotation.bare, Quotation.next, hcq]
      rw [List.cons_append, pass_cons hc, hadv]
      exact ih
  rw [List.cons_append, pass_cons (ne_backslash_of_isQuote hq), hopen]
  exact hinside

theorem endsEscaping_quotation {q : Char} {inside : Text} (hq : isQuote q = true)
    (h : InQuotes q inside) (t : Text) :
    endsEscaping (q :: inside ++ q :: t) = endsEscaping t := by
  have hq' := ne_backslash_of_isQuote hq
  have hinside : endsEscaping inside = false := by
    induction h with
    | nil => rfl
    | escape c _ ih => rw [endsEscaping_escape, ih]
    | char _ hc _ ih => rw [endsEscaping_cons_of_ne hc, ih]
  rw [List.cons_append, endsEscaping_cons_of_ne hq', endsEscaping_append hinside,
    endsEscaping_cons_of_ne hq']

/-- What one bare character can do to the depth inside a group. -/
theorem groupStep_eq_some_iff {depth depth' : Nat} {c : Char} :
    groupStep depth c = some depth' ↔
      (c = '(' ∧ depth' = depth + 1) ∨ (c = ')' ∧ depth = depth' + 1) ∨
        (c ≠ '(' ∧ c ≠ ')' ∧ depth' = depth) := by
  unfold groupStep
  by_cases hopen : c = '('
  · simp [hopen, eq_comm]
  by_cases hclose : c = ')'
  · cases depth <;> simp [hclose, eq_comm]
  · simp [hopen, hclose, eq_comm]

theorem groupStep_eq_none_iff {depth : Nat} {c : Char} :
    groupStep depth c = none ↔ c = ')' ∧ depth = 0 := by
  unfold groupStep
  by_cases ho : c = '('
  · simp [ho]
  · by_cases hc : c = ')'
    · cases depth <;> simp [hc]
    · simp [ho, hc]

theorem Balanced.endsEscaping {s : Text} (h : Balanced s) : endsEscaping s = false := by
  induction h with
  | nil => rfl
  | escape c _ ih => rw [endsEscaping_escape, ih]
  | quotation hq hin _ ih => rw [endsEscaping_quotation hq hin, ih]
  | group _ _ ihin ih =>
    rw [List.cons_append, endsEscaping_cons_of_ne (by decide), endsEscaping_append ihin,
      endsEscaping_cons_of_ne (by decide), ih]
  | char _ _ hb _ _ ih => rw [endsEscaping_cons_of_ne hb, ih]

theorem advance_groupStep_open (depth : Nat) :
    advance groupStep depth none '(' = some (depth + 1, none) := by
  simp [advance, Quotation.bare, isQuote, groupStep]

theorem advance_groupStep_close (depth : Nat) :
    advance groupStep (depth + 1) none ')' = some (depth, none) := by
  simp [advance, Quotation.bare, isQuote, groupStep]

theorem Balanced.pass {s : Text} (h : Balanced s) (depth : Nat) :
    pass groupStep depth none s = some (depth, none) := by
  induction h generalizing depth with
  | nil => rw [pass_nil]
  | escape c _ ih => rw [pass_escape, ih]
  | quotation hq hin _ ih => rw [pass_quotation hq hin, ih]
  | group hin _ ihin ih =>
    rw [List.cons_append, pass_cons (by decide), advance_groupStep_open, Option.bind_some,
      pass_append hin.endsEscaping, ihin, Option.bind_some, pass_cons (by decide),
      advance_groupStep_close]
    exact ih depth
  | @char c s ho hc hb hq _ ih =>
    have hadv : advance groupStep depth none c = some (depth, none) := by
      simp [advance, Quotation.bare, hq, groupStep, ho, hc, hb]
    rw [pass_cons hb, hadv]
    exact ih depth

/-! ## The scan passes nothing else

The scan is at some depth when it reaches a text, so the text closes that many groups before it
is balanced itself.  -/

/-- Balanced text in which `depth` more brackets close than open. -/
def ClosesGroups : Nat → Text → Prop
  | 0, s => Balanced s
  | depth + 1, s => ∃ inside t, s = inside ++ ')' :: t ∧ Balanced inside ∧ ClosesGroups depth t

theorem ClosesGroups.append (piece : Text) (hpiece : ∀ s, Balanced s → Balanced (piece ++ s))
    {depth : Nat} {s : Text} (h : ClosesGroups depth s) : ClosesGroups depth (piece ++ s) := by
  cases depth with
  | zero => exact hpiece s h
  | succ depth =>
    obtain ⟨inside, t, rfl, hin, ht⟩ := h
    exact ⟨piece ++ inside, t, by simp, hpiece inside hin, ht⟩

/-- What is left to read in a quotation, or outside of all quotations. -/
def ClosesIn (depth : Nat) : Quotation → Text → Prop
  | none, s => ClosesGroups depth s
  | some q, s => ∃ inside t, s = inside ++ q :: t ∧ InQuotes q inside ∧ ClosesGroups depth t

/-- A bare character, as the scan counts it. -/
theorem ClosesGroups.of_groupStep {depth depth' : Nat} {c : Char} {s : Text}
    (hq : isQuote c = false) (hc : c ≠ '\\') (hstep : groupStep depth c = some depth')
    (h : ClosesGroups depth' s) : ClosesGroups depth (c :: s) := by
  rcases groupStep_eq_some_iff.mp hstep with ⟨rfl, rfl⟩ | ⟨rfl, rfl⟩ | ⟨hopen, hclose, rfl⟩
  · -- a group begins: it is closed by the first bracket that the rest closes
    obtain ⟨inside, t, rfl, hin, ht⟩ := h
    have happ := ClosesGroups.append ('(' :: inside ++ [')'])
      (fun s hs => by simpa using Balanced.group hin hs) ht
    simpa using happ
  · exact ⟨[], s, rfl, .nil, h⟩
  · exact ClosesGroups.append [c] (fun s => Balanced.char hopen hclose hc hq) h

/-- A character that is not bare begins a quotation, goes on with one, or ends it. -/
theorem ClosesIn.of_next {depth : Nat} {q : Quotation} {c : Char} {s : Text} (hc : c ≠ '\\')
    (hb : q.bare c = false) (h : ClosesIn depth (q.next c) s) : ClosesIn depth q (c :: s) := by
  cases q with
  | none =>
    have hcq : isQuote c = true := by simpa [Quotation.bare, hc] using hb
    rw [Quotation.next, if_pos hcq] at h
    obtain ⟨inside, t, rfl, hin, ht⟩ := h
    have happ := ClosesGroups.append (c :: inside ++ [c])
      (fun s hs => by simpa using Balanced.quotation hcq hin hs) ht
    simpa [ClosesIn] using happ
  | some o =>
    by_cases hco : c = o
    · rw [Quotation.next, if_pos hco] at h
      rw [hco]
      exact ⟨[], s, rfl, .nil, h⟩
    · rw [Quotation.next, if_neg hco] at h
      obtain ⟨inside, t, rfl, hin, ht⟩ := h
      exact ⟨c :: inside, t, rfl, .char hco hc hin, ht⟩

theorem closesIn_of_pass {s : Text} (he : endsEscaping s = false) {depth : Nat} {q : Quotation}
    (h : pass groupStep depth q s = some (0, none)) : ClosesIn depth q s := by
  induction s using escapeInduction generalizing depth q with
  | nil =>
    rw [pass_nil] at h
    cases h
    exact Balanced.nil
  | lone => simp [Text.endsEscaping, oddEscapes_cons] at he
  | escape c s ih =>
    rw [pass_escape] at h
    rw [endsEscaping_escape] at he
    have hs := ih he h
    cases q with
    | none => exact ClosesGroups.append ['\\', c] (fun s => Balanced.escape c) hs
    | some o =>
      obtain ⟨inside, t, rfl, hin, ht⟩ := hs
      exact ⟨'\\' :: c :: inside, t, rfl, .escape c hin, ht⟩
  | char c s hc ih =>
    rw [endsEscaping_cons_of_ne hc] at he
    rw [pass_cons_eq_some_iff hc] at h
    rcases h with ⟨hb, depth', hstep, hs⟩ | ⟨hb, hs⟩
    · cases q with
      | none =>
        have hcq : isQuote c = false := by simpa [Quotation.bare, hc] using hb
        exact ClosesGroups.of_groupStep hcq hc hstep (ih he hs)
      | some o => simp [Quotation.bare] at hb
    · exact ClosesIn.of_next hc hb (ih he hs)

/-- The balanced texts are those that the scan passes from depth zero to depth zero. -/
theorem balanced_iff {s : Text} :
    Balanced s ↔ pass groupStep 0 none s = some (0, none) ∧ endsEscaping s = false := by
  constructor
  · intro h
    exact ⟨h.pass 0, h.endsEscaping⟩
  · intro h
    exact closesIn_of_pass h.2 h.1

theorem inert_groupStep {p : Char → Bool}
    (hp : ['"', '\'', '\\', '(', ')'].any p = false) {c : Char} (hc : p c = true) :
    Inert groupStep c := by
  refine inert_of_signs ?_ hp hc
  intro c hmem st
  simp only [List.mem_cons, List.not_mem_nil, or_false, not_or] at hmem
  simp [groupStep, hmem.1, hmem.2]

theorem Balanced.append {s t : Text} (hs : Balanced s) (ht : Balanced t) : Balanced (s ++ t) := by
  rw [balanced_iff]
  refine ⟨?_, by rw [endsEscaping_append hs.endsEscaping, ht.endsEscaping]⟩
  rw [pass_append hs.endsEscaping, hs.pass, Option.bind_some, ht.pass]

theorem Balanced.of_all {p : Char → Bool} (hp : ['"', '\'', '\\', '(', ')'].any p = false)
    {s : Text} (hs : s.all p = true) : Balanced s := by
  have hinert : ∀ c ∈ s, Inert groupStep c := by
    intro c hc
    exact inert_groupStep hp (List.all_eq_true.mp hs c hc)
  exact balanced_iff.mpr
    ⟨pass_of_inert hinert 0 Quotation.proper_none, endsEscaping_of_inert hinert⟩

/-! ## Groups -/

/-- A group is found exactly where balanced text stands between parentheses. -/
theorem group?_eq_some_iff {s content rest : Text} :
    group? s = some (content, rest) ↔ s = '(' :: content ++ ')' :: rest ∧ Balanced content := by
  constructor
  · intro h
    unfold group? at h
    split at h
    · next inner =>
      have happ := breakBare_append groupStep 0 none inner
      split at h
      · cases h
      · next before c after hb =>
        cases h
        rw [hb] at happ
        obtain ⟨depth, hp, he, -, hstep⟩ := pass_of_breakBare hb
        rw [groupStep_eq_none_iff] at hstep
        obtain ⟨rfl, rfl⟩ := hstep
        exact ⟨by rw [← happ]; rfl, balanced_iff.mpr ⟨hp, he⟩⟩
    · cases h
  · intro h
    obtain ⟨rfl, hb⟩ := h
    have hstop : breakBare groupStep 0 none (')' :: rest) = ([], ')' :: rest) := by
      rw [breakBare_cons (by decide)]
      simp [advance, Quotation.bare, isQuote, groupStep]
    rw [List.cons_append, group?, breakBare_append_of_pass (hb.pass 0) hb.endsEscaping, hstop]
    simp

end FilterList.Text
