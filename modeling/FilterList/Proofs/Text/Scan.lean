import FilterList.Text.Escape
import FilterList.Text.Group
set_option autoImplicit false

/-!
# Passing through a text

`breakBare` stops before the first bare character that its step function refuses.  To know where
it stops in a text that was put together from pieces, one has to know in which state it leaves
each piece.  `pass` gives that state, and nothing if a character of the piece is refused.

Two things can carry over from one piece to the next: the state with the quotation, which `pass`
gives, and a backslash at the very end of the piece, which takes the first character of the next
piece with it.  The second is judged by `endsEscaping`, here read forwards.
-/

namespace FilterList.Text

/-! ## Escapes read forwards -/

theorem oddEscapes_append {near far : Text} (h : oddEscapes far = false) :
    oddEscapes (near ++ far) = oddEscapes near := by
  induction near with
  | nil => exact h
  | cons c near ih => rw [List.cons_append, oddEscapes_cons, oddEscapes_cons, ih]

@[simp] theorem endsEscaping_nil : endsEscaping [] = false := rfl

/-- Only a backslash that is not itself escaped leaves something escaped. -/
theorem endsEscaping_concat (s : Text) (c : Char) :
    endsEscaping (s ++ [c]) = (c == '\\' && !endsEscaping s) := by
  simp [endsEscaping, oddEscapes_cons]

/-- Behind a piece that leaves nothing escaped, escapes are read as at the front of a text. -/
theorem endsEscaping_append {s t : Text} (h : endsEscaping s = false) :
    endsEscaping (s ++ t) = endsEscaping t := by
  unfold endsEscaping at *
  rw [List.reverse_append, oddEscapes_append h]

theorem endsEscaping_append_cons {s t : Text} {c : Char} (h : endsEscaping s = true) :
    endsEscaping (s ++ c :: t) = endsEscaping t := by
  have hc : endsEscaping (s ++ [c]) = false := by simp [endsEscaping_concat, h]
  have := endsEscaping_append (t := t) hc
  simpa using this

@[simp] theorem endsEscaping_escape (c : Char) (s : Text) :
    endsEscaping ('\\' :: c :: s) = endsEscaping s :=
  endsEscaping_append_cons (s := ['\\']) rfl

theorem endsEscaping_cons_of_ne {c : Char} (hc : c ≠ '\\') (s : Text) :
    endsEscaping (c :: s) = endsEscaping s := by
  have h : endsEscaping [c] = false := by simp [endsEscaping, oddEscapes_cons, hc]
  exact endsEscaping_append h

theorem endsEscaping_of_not_mem {s : Text} (h : '\\' ∉ s) : endsEscaping s = false := by
  induction s with
  | nil => rfl
  | cons c s ih =>
    simp only [List.mem_cons, not_or] at h
    rw [endsEscaping_cons_of_ne (fun e => h.1 e.symm), ih h.2]

/-- A text that ends in a character other than a backslash leaves nothing escaped. -/
theorem endsEscaping_concat_of_ne {c : Char} (hc : c ≠ '\\') (s : Text) :
    endsEscaping (s ++ [c]) = false := by
  simp [endsEscaping_concat, hc]

/-- What leaves something escaped is a last backslash that is not itself escaped. -/
theorem exists_eq_concat_of_endsEscaping {s : Text} (h : endsEscaping s = true) :
    ∃ u, s = u ++ ['\\'] ∧ endsEscaping u = false := by
  rcases List.eq_nil_or_concat s with rfl | ⟨u, c, rfl⟩
  · cases h
  · rw [List.concat_eq_append] at h ⊢
    rw [endsEscaping_concat, Bool.and_eq_true, beq_iff_eq, Bool.not_eq_true'] at h
    obtain ⟨rfl, hu⟩ := h
    exact ⟨u, rfl, hu⟩

/-- Induction along a text by unescaped characters: an escape takes two characters, and a
backslash at the very end stands alone. -/
@[elab_as_elim]
theorem escapeInduction {motive : Text → Prop} (nil : motive []) (lone : motive ['\\'])
    (escape : ∀ c s, motive s → motive ('\\' :: c :: s))
    (char : ∀ c s, c ≠ '\\' → motive s → motive (c :: s)) (s : Text) : motive s :=
  match s with
  | [] => nil
  | [c] =>
    if h : c = '\\' then h ▸ lone else char c [] h nil
  | c :: d :: rest =>
    if h : c = '\\' then h ▸ escape d rest (escapeInduction nil lone escape char rest)
    else char c (d :: rest) h (escapeInduction nil lone escape char (d :: rest))

/-! ## The state behind a piece -/

section

variable {σ τ : Type} (step : σ → Char → Option σ)

/-- The state and the quotation behind one unescaped character, if it is not refused. -/
def advance (st : σ) (q : Quotation) (c : Char) : Option (σ × Quotation) :=
  if q.bare c then (step st c).map (·, q) else some (st, q.next c)

/-- The state and the quotation in which scanning leaves a text, if `step` refuses none of its bare
characters.  A backslash at the very end changes nothing by itself. -/
def pass : σ → Quotation → Text → Option (σ × Quotation)
  | st, q, [] => some (st, q)
  | st, q, ['\\'] => some (st, q)
  | st, q, '\\' :: _ :: rest => pass st q rest
  | st, q, c :: rest => (advance step st q c).bind fun r => pass r.1 r.2 rest

end

section

variable {σ τ : Type} {step : σ → Char → Option σ}

/-- Only a bare character is refused, and then for the state alone. -/
theorem advance_eq_none_iff {st : σ} {q : Quotation} {c : Char} :
    advance step st q c = none ↔ q = none ∧ Quotation.bare none c = true ∧ step st c = none := by
  unfold advance
  cases q with
  | none =>
    by_cases hb : Quotation.bare none c = true
    · rw [if_pos hb, Option.map_eq_none_iff]
      simp [hb]
    · rw [if_neg hb]
      simp [hb]
  | some o => simp [Quotation.bare]

@[simp] theorem pass_nil (st : σ) (q : Quotation) : pass step st q [] = some (st, q) := by
  rw [pass]

@[simp] theorem pass_backslash (st : σ) (q : Quotation) : pass step st q ['\\'] = some (st, q) := by
  rw [pass]

@[simp] theorem pass_escape (st : σ) (q : Quotation) (c : Char) (s : Text) :
    pass step st q ('\\' :: c :: s) = pass step st q s := by
  rw [pass]

theorem pass_cons {c : Char} (hc : c ≠ '\\') (st : σ) (q : Quotation) (s : Text) :
    pass step st q (c :: s) = (advance step st q c).bind fun r => pass step r.1 r.2 s := by
  rw [pass]
  · rintro rfl
    exact absurd rfl hc
  · rintro _ _ rfl
    exact absurd rfl hc

/-- What happens at the first character of a piece that is passed. -/
theorem pass_cons_eq_some_iff {c : Char} (hc : c ≠ '\\') {st : σ} {q : Quotation} {s : Text}
    {r : σ × Quotation} :
    pass step st q (c :: s) = some r ↔
      (q.bare c = true ∧ ∃ st', step st c = some st' ∧ pass step st' q s = some r) ∨
        (q.bare c = false ∧ pass step st (q.next c) s = some r) := by
  rw [pass_cons hc, advance]
  cases hb : q.bare c with
  | true =>
    cases hstep : step st c with
    | none => simp
    | some st' => simp
  | false => simp

/-- A piece that leaves nothing escaped hands its state over to what follows. -/
theorem pass_append {s : Text} (h : endsEscaping s = false) (st : σ) (q : Quotation) (t : Text) :
    pass step st q (s ++ t) = (pass step st q s).bind fun r => pass step r.1 r.2 t := by
  induction s using escapeInduction generalizing st q with
  | nil => rfl
  | lone => simp [endsEscaping, oddEscapes_cons] at h
  | escape c s ih =>
    rw [endsEscaping_escape] at h
    simpa using ih h st q
  | char c s hc ih =>
    rw [endsEscaping_cons_of_ne hc] at h
    rw [List.cons_append, pass_cons hc, pass_cons hc, Option.bind_assoc]
    congr 1
    funext r
    exact ih h r.1 r.2

/-- A piece that ends in an escape takes one more character with it. -/
theorem pass_append_cons {s : Text} (h : endsEscaping s = true) (st : σ) (q : Quotation) (x : Char)
    (t : Text) :
    pass step st q (s ++ x :: t) = (pass step st q s).bind fun r => pass step r.1 r.2 t := by
  obtain ⟨u, rfl, hu⟩ := exists_eq_concat_of_endsEscaping h
  rw [List.append_assoc, List.singleton_append, pass_append hu, pass_append hu, Option.bind_assoc]
  simp only [pass_escape, pass_backslash, Option.bind_some]

/-- Scanning with a second step function that follows the first one under a change of states. -/
theorem pass_of_simulation (step' : τ → Char → Option τ) (f : σ → τ)
    (hf : ∀ st c st', step st c = some st' → step' (f st) c = some (f st'))
    {st st' : σ} {q q' : Quotation} {s : Text} (h : pass step st q s = some (st', q')) :
    pass step' (f st) q s = some (f st', q') := by
  induction s using escapeInduction generalizing st q with
  | nil =>
    rw [pass_nil] at h ⊢
    cases h
    rfl
  | lone =>
    rw [pass_backslash] at h ⊢
    cases h
    rfl
  | escape c s ih =>
    rw [pass_escape] at h ⊢
    exact ih h
  | char c s hc ih =>
    rw [pass_cons_eq_some_iff hc] at h ⊢
    rcases h with ⟨hb, st₁, hstep, hs⟩ | ⟨hb, hs⟩
    · exact .inl ⟨hb, f st₁, hf _ _ _ hstep, ih hs⟩
    · exact .inr ⟨hb, ih hs⟩

/-! ## Characters that change nothing -/

/-- The opener of a quotation is a quote. -/
def Quotation.Proper (q : Quotation) : Prop := ∀ o, q = some o → isQuote o = true

theorem Quotation.proper_none : Quotation.Proper none := by
  intro o h
  cases h

theorem Quotation.Proper.next {q : Quotation} (h : q.Proper) (c : Char) : (q.next c).Proper := by
  intro o ho
  cases q with
  | none =>
    unfold Quotation.next at ho
    by_cases hc : isQuote c = true
    · simp only [hc, if_true, Option.some.injEq] at ho
      rw [← ho, hc]
    · simp [hc] at ho
  | some opener =>
    unfold Quotation.next at ho
    by_cases hc : c = opener
    · simp [hc] at ho
    · simp only [hc, if_false, Option.some.injEq] at ho
      rw [← ho]
      exact h opener rfl

theorem Quotation.Proper.advance {q : Quotation} (h : q.Proper) {st : σ} {c : Char}
    {r : σ × Quotation} (hr : advance step st q c = some r) : r.2.Proper := by
  unfold Text.advance at hr
  by_cases hb : q.bare c = true
  · rw [if_pos hb, Option.map_eq_some_iff] at hr
    obtain ⟨st', -, rfl⟩ := hr
    exact h
  · rw [if_neg hb] at hr
    cases hr
    exact h.next c

variable (step) in
/-- The character is neither quote nor backslash, and no state changes with it. -/
structure Inert (c : Char) : Prop where
  not_quote : isQuote c = false
  not_backslash : c ≠ '\\'
  step_eq : ∀ st, step st c = some st

/-- A character that differs from quotes, backslashes and all the signs that the step function looks
at changes nothing.  What it differs in is up to `p`. -/
theorem inert_of_signs {signs : List Char}
    (hstep : ∀ c, c ∉ signs → ∀ st, step st c = some st) {p : Char → Bool}
    (hp : ('"' :: '\'' :: '\\' :: signs).any p = false) {c : Char} (hc : p c = true) :
    Inert step c := by
  have hmem : c ∉ '"' :: '\'' :: '\\' :: signs := by
    intro h
    exact List.any_eq_false.mp hp c h hc
  simp only [List.mem_cons, not_or] at hmem
  obtain ⟨hdouble, hsingle, hbackslash, hsigns⟩ := hmem
  exact ⟨by simp [isQuote, hdouble, hsingle], hbackslash, hstep c hsigns⟩

theorem Inert.advance {c : Char} (hc : Inert step c) (st : σ) {q : Quotation} (hq : q.Proper) :
    advance step st q c = some (st, q) := by
  cases q with
  | none =>
    have hb : Quotation.bare none c = true := by
      simp [Quotation.bare, hc.not_quote, hc.not_backslash]
    rw [Text.advance, if_pos hb, hc.step_eq]
    rfl
  | some opener =>
    have hne : c ≠ opener := by
      rintro rfl
      have := hq c rfl
      rw [hc.not_quote] at this
      cases this
    simp [Text.advance, Quotation.bare, Quotation.next, hne]

theorem pass_of_inert {w : Text} (hw : ∀ c ∈ w, Inert step c) (st : σ) {q : Quotation}
    (hq : q.Proper) : pass step st q w = some (st, q) := by
  induction w with
  | nil => rw [pass_nil]
  | cons c w ih =>
    have hc := hw c (by simp)
    rw [pass_cons hc.not_backslash, hc.advance st hq]
    exact ih fun d hd => hw d (by simp [hd])

theorem endsEscaping_of_inert {w : Text} (hw : ∀ c ∈ w, Inert step c) : endsEscaping w = false :=
  endsEscaping_of_not_mem fun h => (hw _ h).not_backslash rfl

/-- Inert characters in front of a text change nothing. -/
theorem pass_inert_append {w : Text} (hw : ∀ c ∈ w, Inert step c) (st : σ) {q : Quotation}
    (hq : q.Proper) (s : Text) : pass step st q (w ++ s) = pass step st q s := by
  rw [pass_append (endsEscaping_of_inert hw), pass_of_inert hw st hq]
  rfl

/-- Inert characters behind a text change nothing, even if the first of them is escaped. -/
theorem pass_append_inert {w : Text} (hw : ∀ c ∈ w, Inert step c) (st : σ) {q : Quotation}
    (hq : q.Proper) (s : Text) : pass step st q (s ++ w) = pass step st q s := by
  induction s using escapeInduction generalizing st q with
  | nil => rw [List.nil_append, pass_of_inert hw st hq, pass_nil]
  | lone =>
    cases w with
    | nil => rfl
    | cons x w =>
      rw [List.singleton_append, pass_escape, pass_backslash]
      exact pass_of_inert (fun d hd => hw d (by simp [hd])) st hq
  | escape c s ih =>
    rw [List.cons_append, List.cons_append, pass_escape, pass_escape]
    exact ih st hq
  | char c s hc ih =>
    rw [List.cons_append, pass_cons hc, pass_cons hc]
    cases hadv : advance step st q c with
    | none => rfl
    | some r => exact ih r.1 (hq.advance hadv)

/-! ## Where scanning stops -/

theorem breakBare_cons {c : Char} (hc : c ≠ '\\') (st : σ) (q : Quotation) (s : Text) :
    breakBare step st q (c :: s) =
      match advance step st q c with
      | none => ([], c :: s)
      | some r => (c :: (breakBare step r.1 r.2 s).1, (breakBare step r.1 r.2 s).2) := by
  rw [breakBare]
  · unfold advance
    by_cases hb : q.bare c = true
    · rw [if_pos hb, if_pos hb]
      cases step st c <;> rfl
    · rw [if_neg hb, if_neg hb]
  · rintro _ _ rfl
    exact absurd rfl hc

/-- Scanning goes through a piece that it passes and that leaves nothing escaped. -/
theorem breakBare_append_of_pass {st st' : σ} {q q' : Quotation} {s : Text}
    (h : pass step st q s = some (st', q')) (he : endsEscaping s = false) (t : Text) :
    breakBare step st q (s ++ t) =
      (s ++ (breakBare step st' q' t).1, (breakBare step st' q' t).2) := by
  induction s using escapeInduction generalizing st q with
  | nil =>
    rw [pass_nil] at h
    cases h
    rfl
  | lone => simp [endsEscaping, oddEscapes_cons] at he
  | escape c s ih =>
    rw [pass_escape] at h
    rw [endsEscaping_escape] at he
    rw [List.cons_append, List.cons_append, breakBare, ih h he]
    rfl
  | char c s hc ih =>
    rw [pass_cons hc, Option.bind_eq_some_iff] at h
    obtain ⟨r, hadv, hs⟩ := h
    rw [endsEscaping_cons_of_ne hc] at he
    rw [List.cons_append, breakBare_cons hc, hadv]
    simp only [ih hs he, List.cons_append]

/-- Scanning goes through a piece that it passes and that ends in an escape, and through one more
character. -/
theorem breakBare_append_cons_of_pass {st st' : σ} {q q' : Quotation} {s : Text}
    (h : pass step st q s = some (st', q')) (he : endsEscaping s = true) (x : Char) (t : Text) :
    breakBare step st q (s ++ x :: t) =
      (s ++ x :: (breakBare step st' q' t).1, (breakBare step st' q' t).2) := by
  have hx : endsEscaping (s ++ [x]) = false := by simp [endsEscaping_concat, he]
  have hp : pass step st q (s ++ [x]) = some (st', q') := by
    rw [pass_append_cons he, h]
    simp
  have := breakBare_append_of_pass hp hx t
  simpa using this

/-- Scanning does not stop in a text that it passes. -/
theorem breakBare_of_pass {st st' : σ} {q q' : Quotation} {s : Text}
    (h : pass step st q s = some (st', q')) : breakBare step st q s = (s, []) := by
  cases he : endsEscaping s with
  | false =>
    have := breakBare_append_of_pass h he []
    simpa [breakBare] using this
  | true =>
    -- the last character is a backslash with nothing to escape
    obtain ⟨u, rfl, hu⟩ := exists_eq_concat_of_endsEscaping he
    rw [pass_append hu, Option.bind_eq_some_iff] at h
    obtain ⟨r, hr, -⟩ := h
    rw [breakBare_append_of_pass hr hu]
    simp [breakBare, Quotation.bare]

/-- What scanning stops before is a bare character that is refused in the state behind all that
it went through. -/
theorem pass_of_breakBare {st : σ} {q : Quotation} {s before after : Text} {c : Char}
    (h : breakBare step st q s = (before, c :: after)) :
    ∃ st', pass step st q before = some (st', none) ∧ endsEscaping before = false ∧
      Quotation.bare none c = true ∧ step st' c = none := by
  induction s using escapeInduction generalizing st q before with
  | nil => simp [breakBare] at h
  | lone => simp [breakBare, Quotation.bare] at h
  | escape d s ih =>
    rw [breakBare] at h
    simp only [Prod.mk.injEq] at h
    obtain ⟨rfl, hafter⟩ := h
    obtain ⟨st', hp, he, hb, hs⟩ := ih (Prod.ext rfl hafter)
    exact ⟨st', by rw [pass_escape, hp], by rw [endsEscaping_escape, he], hb, hs⟩
  | char d s hd ih =>
    rw [breakBare_cons hd] at h
    cases hadv : advance step st q d with
    | none =>
      rw [hadv] at h
      simp only [Prod.mk.injEq, List.cons.injEq] at h
      obtain ⟨rfl, rfl, -⟩ := h
      obtain ⟨rfl, hb, hs⟩ := advance_eq_none_iff.mp hadv
      exact ⟨st, by rw [pass_nil], rfl, hb, hs⟩
    | some r =>
      rw [hadv] at h
      simp only [Prod.mk.injEq] at h
      obtain ⟨rfl, hafter⟩ := h
      obtain ⟨st', hp, he, hb, hs⟩ := ih (Prod.ext rfl hafter)
      refine ⟨st', ?_, by rw [endsEscaping_cons_of_ne hd, he], hb, hs⟩
      rw [pass_cons hd, hadv]
      exact hp

/-- Scanning stops in a text that it does not pass. -/
theorem breakBare_of_pass_eq_none {st : σ} {q : Quotation} {s : Text}
    (h : pass step st q s = none) :
    ∃ before c after, breakBare step st q s = (before, c :: after) := by
  induction s using escapeInduction generalizing st q with
  | nil => simp at h
  | lone => simp at h
  | escape d s ih =>
    rw [pass_escape] at h
    obtain ⟨before, c, after, hb⟩ := ih h
    exact ⟨'\\' :: d :: before, c, after, by rw [breakBare, hb]⟩
  | char d s hd ih =>
    rw [pass_cons hd] at h
    rw [breakBare_cons hd]
    cases hadv : advance step st q d with
    | none => exact ⟨[], d, s, rfl⟩
    | some r =>
      rw [hadv] at h
      obtain ⟨before, c, after, hb⟩ := ih h
      exact ⟨d :: before, c, after, by simp only [hb]⟩

end

/-! ## Cutting at a bare character -/

/-- The step function that refuses one character. -/
def avoiding (target : Char) : Unit → Char → Option Unit :=
  fun _ c => if c = target then none else some ()

theorem avoiding_eq_none_iff {target c : Char} {u : Unit} :
    avoiding target u c = none ↔ c = target := by
  simp [avoiding]

theorem cutBare_of_breakBare_nil {target : Char} {s before : Text}
    (h : breakBare (avoiding target) () none s = (before, [])) : cutBare target s = none := by
  unfold cutBare
  change breakBare (fun _ c => if c = target then none else some ()) () none s = _ at h
  rw [h]

theorem cutBare_of_breakBare_cons {target c : Char} {s before after : Text}
    (h : breakBare (avoiding target) () none s = (before, c :: after)) :
    cutBare target s = some ⟨before, after⟩ := by
  unfold cutBare
  change breakBare (fun _ c => if c = target then none else some ()) () none s = _ at h
  rw [h]

/-- Only a bare character is ever cut at. -/
theorem cutBare_eq_some {target : Char} {s : Text} {cut : Cut} (h : cutBare target s = some cut) :
    Quotation.bare none target = true ∧ s = cut.before ++ target :: cut.after ∧
      pass (avoiding target) () none cut.before = some ((), none) ∧
        endsEscaping cut.before = false := by
  have happ := breakBare_append (avoiding target) () none s
  cases hb : breakBare (avoiding target) () none s with
  | mk before tail =>
    cases tail with
    | nil =>
      rw [cutBare_of_breakBare_nil hb] at h
      cases h
    | cons c after =>
      rw [hb] at happ
      rw [cutBare_of_breakBare_cons hb, Option.some.injEq] at h
      subst h
      obtain ⟨st', hp, he, hbare, hc⟩ := pass_of_breakBare hb
      rw [avoiding_eq_none_iff] at hc
      subst hc
      exact ⟨hbare, happ.symm, hp, he⟩

/-- A text is cut where its bare target is the first one. -/
theorem cutBare_eq_some_iff {target : Char} (ht : Quotation.bare none target = true) {s : Text}
    {cut : Cut} :
    cutBare target s = some cut ↔
      s = cut.before ++ target :: cut.after ∧
        pass (avoiding target) () none cut.before = some ((), none) ∧
        endsEscaping cut.before = false := by
  constructor
  · intro h
    exact (cutBare_eq_some h).2
  · rintro ⟨hs, hp, he⟩
    have hstop : breakBare (avoiding target) () none (target :: cut.after) =
        ([], target :: cut.after) := by
      have hne : target ≠ '\\' := by
        rintro rfl
        simp [Quotation.bare] at ht
      rw [breakBare_cons hne, advance, if_pos ht]
      simp [avoiding]
    have hbreak := breakBare_append_of_pass hp he (target :: cut.after)
    rw [hstop, List.append_nil, ← hs] at hbreak
    exact cutBare_of_breakBare_cons hbreak

/-- Text added at the end does not move a cut. -/
theorem cutBare_append {target : Char} (ht : Quotation.bare none target = true) {s : Text}
    {cut : Cut} (h : cutBare target s = some cut) (t : Text) :
    cutBare target (s ++ t) = some ⟨cut.before, cut.after ++ t⟩ := by
  rw [cutBare_eq_some_iff ht] at h ⊢
  obtain ⟨hs, hp, he⟩ := h
  exact ⟨by simp [hs], hp, he⟩

theorem pass_of_cutBare_eq_none {target : Char} {s : Text} (h : cutBare target s = none) :
    ∃ q, pass (avoiding target) () none s = some ((), q) := by
  cases hp : pass (avoiding target) () none s with
  | some r => exact ⟨r.2, rfl⟩
  | none =>
    obtain ⟨before, c, after, hb⟩ := breakBare_of_pass_eq_none hp
    rw [cutBare_of_breakBare_cons hb] at h
    cases h

theorem cutBare_eq_none_iff {target : Char} {s : Text} :
    cutBare target s = none ↔ ∃ q, pass (avoiding target) () none s = some ((), q) := by
  constructor
  · intro h
    exact pass_of_cutBare_eq_none h
  · intro h
    obtain ⟨q, hp⟩ := h
    exact cutBare_of_breakBare_nil (breakBare_of_pass hp)

/-- Every quotation that begins in the text ends in it. -/
def ClosesQuotations (s : Text) : Prop :=
  pass (fun (_ : Unit) _ => some ()) () none s = some ((), none)

instance (s : Text) : Decidable (ClosesQuotations s) :=
  inferInstanceAs (Decidable (_ = _))

/-- Whatever the step function, scanning leaves a text that closes its quotations in no
quotation. -/
theorem ClosesQuotations.eq_none {σ : Type} {step : σ → Char → Option σ} {st st' : σ}
    {q : Quotation} {s : Text} (hs : ClosesQuotations s)
    (h : pass step st none s = some (st', q)) : q = none := by
  have hsim := pass_of_simulation (fun (_ : Unit) _ => some ()) (fun _ => ())
    (fun _ _ _ _ => rfl) h
  rw [ClosesQuotations] at hs
  rw [hs] at hsim
  cases hsim
  rfl

theorem closesQuotations_of_pass {σ : Type} {step : σ → Char → Option σ} {st st' : σ} {s : Text}
    (h : pass step st none s = some (st', none)) : ClosesQuotations s :=
  pass_of_simulation (fun (_ : Unit) _ => some ()) (fun _ => ()) (fun _ _ _ _ => rfl) h

theorem ClosesQuotations.append {s t : Text} (hs : ClosesQuotations s)
    (he : endsEscaping s = false) (ht : ClosesQuotations t) : ClosesQuotations (s ++ t) := by
  unfold ClosesQuotations at *
  rw [pass_append he, hs]
  exact ht

/-- The first bare target stands behind a piece without one. -/
theorem cutBare_append_cons {target : Char} (ht : Quotation.bare none target = true) {s : Text}
    (h : cutBare target s = none) (hq : ClosesQuotations s) (he : endsEscaping s = false)
    (t : Text) : cutBare target (s ++ target :: t) = some ⟨s, t⟩ := by
  obtain ⟨q, hp⟩ := pass_of_cutBare_eq_none h
  have := hq.eq_none hp
  subst this
  exact (cutBare_eq_some_iff ht).mpr ⟨rfl, hp, he⟩

/-! ## Cutting at any character -/

theorem cutFirst_append {target : Char} {s : Text} (hs : target ∉ s) (t : Text) :
    cutFirst target (s ++ target :: t) = some ⟨s, t⟩ := by
  induction s with
  | nil => simp [cutFirst]
  | cons c s ih =>
    simp only [List.mem_cons, not_or] at hs
    have hc : c ≠ target := fun e => hs.1 e.symm
    simp [cutFirst, hc, ih hs.2, Cut.shift]

theorem cutLast_append {target : Char} {s t : Text} (ht : target ∉ t) :
    cutLast target (s ++ target :: t) = some ⟨s, t⟩ := by
  have hnone : cutLast target t = none := by
    cases hcut : cutLast target t with
    | none => rfl
    | some cut =>
      obtain ⟨htext, -⟩ := cutLast_eq_some hcut
      exact absurd (by rw [htext]; simp) ht
  induction s with
  | nil => simp [cutLast, hnone]
  | cons c s ih => simp [cutLast, ih, Cut.shift]

theorem beforeFinal?_eq_some_iff {c : Char} {s t : Text} :
    beforeFinal? c s = some t ↔ s = t ++ [c] := by
  unfold beforeFinal? endsWith
  constructor
  · intro h
    by_cases hlast : (s.getLast? == some c) = true
    · rw [if_pos hlast] at h
      cases h
      rw [beq_iff_eq] at hlast
      obtain ⟨t, rfl⟩ := List.getLast?_eq_some_iff.mp hlast
      simp
    · rw [if_neg hlast] at h
      cases h
  · intro h
    subst h
    simp

end FilterList.Text
