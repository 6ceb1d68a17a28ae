import FilterList.Css.Token
import FilterList.Proofs.Reader
import FilterList.Proofs.Text.Balanced
set_option autoImplicit false

/-!
# The words that tokens are made of

Each kind of token is a language of its own: gaps (blanks and closed comments), names, quoted
strings and groups.  The readers of tokens take exactly these words, and each section ends with
what may stand behind a word so that it is taken whole.
-/

namespace FilterList.Css.Token

/-! ## Gaps -/

/-- Gap characters and closed comments, in any order.  A comment ends at its first `*/`. -/
inductive Gaps (gap : Char → Bool) : Text → Prop
  | nil : Gaps gap []
  | char {c : Char} {s : Text} : gap c = true → Gaps gap s → Gaps gap (c :: s)
  | comment {body s : Text} : ¬ ['*', '/'] <:+: body → Gaps gap s →
      Gaps gap ('/' :: '*' :: body ++ '*' :: '/' :: s)

/-- Blanks and closed comments. -/
abbrev IsGap (s : Text) : Prop := Gaps isBlank s

theorem Gaps.append {gap : Char → Bool} {s t : Text} (hs : Gaps gap s) (ht : Gaps gap t) :
    Gaps gap (s ++ t) := by
  induction hs with
  | nil => exact ht
  | char hc _ ih => exact .char hc ih
  | comment hb _ ih => simpa using Gaps.comment hb ih

theorem Gaps.mono {gap gap' : Char → Bool} (h : ∀ c, gap c = true → gap' c = true) {s : Text}
    (hs : Gaps gap s) : Gaps gap' s := by
  induction hs with
  | nil => exact .nil
  | char hc _ ih => exact .char (h _ hc) ih
  | comment hb _ ih => exact .comment hb ih

theorem Gaps.of_all {gap : Char → Bool} {s : Text} (h : ∀ c ∈ s, gap c = true) : Gaps gap s := by
  induction s with
  | nil => exact .nil
  | cons c s ih =>
    exact .char (h c List.mem_cons_self) (ih fun d hd => h d (List.mem_cons_of_mem _ hd))

section

variable {gap : Char → Bool}

theorem skipGaps_cons {c : Char} (hc : c ≠ '/') (s : Text) :
    skipGaps gap (c :: s) = if gap c then skipGaps gap s else c :: s := by
  rw [skipGaps]
  intro rest h
  exact absurd h hc

theorem skipGaps_slash {s : Text} (hs : s.head? ≠ some '*') :
    skipGaps gap ('/' :: s) = if gap '/' then skipGaps gap s else '/' :: s := by
  rw [skipGaps]
  intro rest h hrest
  simp [hrest] at hs

/-- A comment goes on behind a character that does not close it. -/
theorem skipComment_cons {c : Char} {s : Text} (h : ¬ ['*', '/'] <+: c :: s) :
    skipComment gap (c :: s) = skipComment gap s := by
  rw [skipComment]
  intro rest hc hs
  subst hc hs
  exact h ⟨rest, rfl⟩

/-- What stands behind the first `*/` of a text. -/
def behindComment : Text → Option Text
  | [] => none
  | '*' :: '/' :: rest => some rest
  | _ :: rest => behindComment rest

theorem behindComment_cons {c : Char} {s : Text} (h : ¬ ['*', '/'] <+: c :: s) :
    behindComment (c :: s) = behindComment s := by
  rw [behindComment]
  intro rest hc hs
  subst hc hs
  exact h ⟨rest, rfl⟩

/-- Skipping goes on behind the end of the comment, if there is one. -/
theorem skipComment_eq (s : Text) : skipComment gap s = (behindComment s).map (skipGaps gap) := by
  induction s with
  | nil => rw [skipComment, behindComment, Option.map_none]
  | cons c s ih =>
    by_cases hclose : ['*', '/'] <+: c :: s
    · obtain ⟨t, ht⟩ := hclose
      rw [← ht, List.cons_append, List.cons_append, skipComment, behindComment, Option.map_some]
    · rw [skipComment_cons hclose, behindComment_cons hclose, ih]

theorem behindComment_append {body : Text} (hb : ¬ ['*', '/'] <:+: body) (t : Text) :
    behindComment (body ++ '*' :: '/' :: t) = some t := by
  induction body with
  | nil => rw [List.nil_append, behindComment]
  | cons c body ih =>
    have htail : ¬ ['*', '/'] <:+: body := fun h => hb (List.infix_cons h)
    have hfront : ¬ ['*', '/'] <+: c :: (body ++ '*' :: '/' :: t) := by
      intro h
      rw [List.cons_prefix_cons] at h
      obtain ⟨rfl, h⟩ := h
      cases body with
      | nil => simp at h
      | cons d body =>
        simp only [List.cons_append, List.cons_prefix_cons, List.nil_prefix, and_true] at h
        subst h
        exact hb ⟨[], body, rfl⟩
    rw [List.cons_append, behindComment_cons hfront, ih htail]

theorem eq_append_of_behindComment {s t : Text} (h : behindComment s = some t) :
    ∃ body, s = body ++ '*' :: '/' :: t ∧ ¬ ['*', '/'] <:+: body := by
  induction s with
  | nil => simp [behindComment] at h
  | cons c s ih =>
    by_cases hclose : ['*', '/'] <+: c :: s
    · obtain ⟨rest, hrest⟩ := hclose
      rw [← hrest] at h ⊢
      rw [List.cons_append, List.cons_append, behindComment] at h
      exact ⟨[], by simpa using h, by simp⟩
    · rw [behindComment_cons hclose] at h
      obtain ⟨body, rfl, hb⟩ := ih h
      refine ⟨c :: body, rfl, ?_⟩
      intro hin
      rw [List.infix_cons_iff] at hin
      rcases hin with hpre | hin
      · exact hclose (hpre.trans ⟨'*' :: '/' :: t, rfl⟩)
      · exact hb hin

theorem skipComment_append {body : Text} (hb : ¬ ['*', '/'] <:+: body) (t : Text) :
    skipComment gap (body ++ '*' :: '/' :: t) = some (skipGaps gap t) := by
  rw [skipComment_eq, behindComment_append hb, Option.map_some]

theorem eq_append_of_skipComment {s rest : Text} (h : skipComment gap s = some rest) :
    ∃ body t, s = body ++ '*' :: '/' :: t ∧ ¬ ['*', '/'] <:+: body ∧ rest = skipGaps gap t := by
  rw [skipComment_eq, Option.map_eq_some_iff] at h
  obtain ⟨t, ht, hrest⟩ := h
  obtain ⟨body, hs, hb⟩ := eq_append_of_behindComment ht
  exact ⟨body, t, hs, hb, hrest.symm⟩

/-- Skipping goes through a gap, whatever follows it. -/
theorem skipGaps_append (hslash : gap '/' = false) {s : Text} (hs : Gaps gap s) (t : Text) :
    skipGaps gap (s ++ t) = skipGaps gap t := by
  induction hs with
  | nil => rfl
  | @char c s hc _ ih =>
    have hne : c ≠ '/' := by
      intro h
      rw [h, hslash] at hc
      cases hc
    rw [List.cons_append, skipGaps_cons hne, if_pos hc, ih]
  | @comment body s hb _ ih =>
    have heq : '/' :: '*' :: body ++ '*' :: '/' :: s ++ t =
        '/' :: '*' :: (body ++ '*' :: '/' :: (s ++ t)) := by simp
    rw [heq, skipGaps, skipComment_append hb, Option.getD_some, ih]

/-- What is skipped is a gap. -/
theorem exists_gaps_append_skipGaps (gap : Char → Bool) (s : Text) :
    ∃ u, s = u ++ skipGaps gap s ∧ Gaps gap u := by
  induction hn : s.length using Nat.strongRecOn generalizing s with
  | ind n ih =>
    cases s with
    | nil => exact ⟨[], by simp [skipGaps], .nil⟩
    | cons c s =>
      by_cases hopen : ['/', '*'] <+: c :: s
      · obtain ⟨t, ht⟩ := hopen
        rw [← ht] at hn ⊢
        rw [List.cons_append, List.cons_append, List.nil_append, skipGaps]
        cases hc : skipComment gap t with
        | none => exact ⟨[], by simp, .nil⟩
        | some rest =>
          obtain ⟨body, t', rfl, hb, rfl⟩ := eq_append_of_skipComment hc
          obtain ⟨u, hu, hgap⟩ := ih t'.length (by rw [← hn]; simp; omega) t' rfl
          refine ⟨'/' :: '*' :: body ++ '*' :: '/' :: u, ?_, .comment hb hgap⟩
          simp only [Option.getD_some, List.cons_append, List.append_assoc]
          rw [← hu]
      · have heq : skipGaps gap (c :: s) = if gap c then skipGaps gap s else c :: s := by
          by_cases hc : c = '/'
          · subst hc
            apply skipGaps_slash
            intro hs
            cases s with
            | nil => simp at hs
            | cons d s =>
              simp only [List.head?_cons, Option.some.injEq] at hs
              subst hs
              exact hopen ⟨s, rfl⟩
          · exact skipGaps_cons hc s
        rw [heq]
        by_cases hg : gap c = true
        · obtain ⟨u, hu, hgap⟩ := ih s.length (by rw [← hn]; simp) s rfl
          refine ⟨c :: u, ?_, .char hg hgap⟩
          rw [if_pos hg, List.cons_append, ← hu]
        · exact ⟨[], by simp [hg], .nil⟩

/-- Nothing is left to skip behind what has been skipped. -/
theorem skipGaps_skipGaps (hslash : gap '/' = false) (s : Text) :
    skipGaps gap (skipGaps gap s) = skipGaps gap s := by
  obtain ⟨u, hs, hu⟩ := exists_gaps_append_skipGaps gap s
  have := skipGaps_append hslash hu (skipGaps gap s)
  rw [← hs] at this
  exact this.symm

end

/-- A gap begins with a gap character or a slash. -/
theorem Gaps.head {gap : Char → Bool} {c : Char} {s : Text} (h : Gaps gap (c :: s)) :
    gap c = true ∨ c = '/' := by
  cases h with
  | char hc _ => exact .inl hc
  | comment _ _ => exact .inr rfl

/-- A gap ends with a gap character or a slash. -/
theorem Gaps.getLast {gap : Char → Bool} {s : Text} (h : Gaps gap s) {c : Char}
    (hc : s.getLast? = some c) : gap c = true ∨ c = '/' := by
  induction h with
  | nil => cases hc
  | @char d s hd _ ih =>
    cases s with
    | nil =>
      rw [List.getLast?_singleton] at hc
      cases hc
      exact .inl hd
    | cons e s => exact ih (by rw [← List.getLast?_cons_cons]; exact hc)
  | @comment body s _ _ ih =>
    cases s with
    | nil =>
      rw [List.getLast?_append] at hc
      cases hc
      exact .inr rfl
    | cons e s =>
      rw [List.getLast?_append, List.getLast?_cons_cons, List.getLast?_cons_cons] at hc
      cases hlast : (e :: s).getLast? with
      | none => simp at hlast
      | some d =>
        rw [hlast] at hc
        cases hc
        exact ih hlast

theorem Gaps.of_cons {gap : Char → Bool} {c : Char} {s : Text} (h : Gaps gap (c :: s))
    (hc : c ≠ '/') : Gaps gap s := by
  cases h with
  | char _ hs => exact hs
  | comment _ _ => exact absurd rfl hc

theorem Gaps.of_concat {gap : Char → Bool} {c : Char} {s : Text} (h : Gaps gap (s ++ [c]))
    (hc : c ≠ '/') : Gaps gap s := by
  generalize ht : s ++ [c] = t at h
  induction h generalizing s with
  | nil => simp at ht
  | @char d t hd _ ih =>
    cases s with
    | nil => exact .nil
    | cons e s =>
      obtain ⟨rfl, hs⟩ := List.cons.inj ht
      exact .char hd (ih hs)
  | @comment body t hb _ ih =>
    cases hrev : t.reverse with
    | nil =>
      have hlast := congrArg List.getLast? ht
      rw [List.reverse_eq_nil_iff.mp hrev, List.getLast?_concat, List.getLast?_append] at hlast
      exact absurd (Option.some.inj hlast) hc
    | cons e r =>
      have htext : t = r.reverse ++ [e] := by rw [← List.reverse_reverse t, hrev]; simp
      have hsplit : s ++ [c] = ('/' :: '*' :: body ++ '*' :: '/' :: r.reverse) ++ [e] := by
        rw [ht, htext]
        simp
      obtain ⟨hs, he⟩ := List.append_inj' hsplit rfl
      rw [hs]
      exact .comment hb (ih (by rw [htext, (List.cons.inj he).1]))

theorem Gaps.endsEscaping {gap : Char → Bool} (hgap : gap '\\' = false) {s : Text}
    (h : Gaps gap s) : Text.endsEscaping s = false := by
  cases hrev : s.reverse with
  | nil => rw [List.reverse_eq_nil_iff.mp hrev, Text.endsEscaping_nil]
  | cons c r =>
    have hs : s = r.reverse ++ [c] := by rw [← List.reverse_reverse s, hrev]; simp
    have hlast : s.getLast? = some c := by rw [hs, List.getLast?_concat]
    rw [hs]
    apply Text.endsEscaping_concat_of_ne
    intro hc
    subst hc
    rcases h.getLast hlast with hc | hc
    · rw [hgap] at hc
      cases hc
    · exact absurd hc (by decide)

/-- No gap stands at the front of the text. -/
def Tight (s : Text) : Prop := skipBlank s = s

@[simp] theorem tight_nil : Tight [] := rfl

theorem tight_cons {c : Char} (hb : isBlank c = false) (hs : c ≠ '/') (s : Text) :
    Tight (c :: s) := by
  rw [Tight, skipBlank, skipGaps_cons hs, if_neg (by simp [hb])]

theorem Tight.head_ne_blank {s : Text} (h : Tight s) : s.head? ≠ some ' ' := by
  intro hhead
  obtain ⟨t, rfl⟩ := List.head?_eq_some_iff.mp hhead
  have hskip : skipBlank (' ' :: t) = skipBlank t := skipGaps_cons (by decide) t
  obtain ⟨w, ht, -⟩ := exists_gaps_append_skipGaps isBlank t
  have hlen := congrArg List.length ht
  rw [Tight, hskip, skipBlank] at h
  rw [h] at hlen
  simp only [List.length_append, List.length_cons] at hlen
  omega

theorem skipBlank_append {w s : Text} (hw : IsGap w) (hs : Tight s) : skipBlank (w ++ s) = s := by
  rw [skipBlank, skipGaps_append rfl hw]
  exact hs

theorem exists_gap_append_skipBlank (s : Text) : ∃ w, s = w ++ skipBlank s ∧ IsGap w :=
  exists_gaps_append_skipGaps isBlank s

theorem blank_eq_done_iff {s rest : Text} {u : Unit} :
    blank s = .done u rest ↔ skipBlank s = rest := Reader.skip_eq_done_iff

/-- What is read is read with the blanks behind it. -/
theorem then_blank_eq_done_iff {α β : Type} {p : Reader α} {f : α → β} {s rest : Text} {b : β} :
    (do let a ← p; blank; return f a : Reader β) s = .done b rest ↔
      ∃ a mid, p s = .done a mid ∧ skipBlank mid = rest ∧ f a = b := by
  simp only [Reader.bind_eq_done_iff, blank_eq_done_iff, Reader.pure_eq_done_iff]
  constructor
  · intro h
    obtain ⟨a, mid, hread, _, _, rfl, rfl, rfl⟩ := h
    exact ⟨a, mid, hread, rfl, rfl⟩
  · intro h
    obtain ⟨a, mid, hread, rfl, rfl⟩ := h
    exact ⟨a, mid, hread, (), _, rfl, rfl, rfl⟩

/-! ## Lists with commas -/

/-- Words with a comma between any two, and their values in order. -/
inductive CommaList {α : Type} (L : Text → α → Prop) : Text → List α → Prop
  | one {u : Text} {a : α} : L u a → CommaList L u [a]
  | cons {u v : Text} {a : α} {as : List α} : L u a → CommaList L v as →
      CommaList L (u ++ ',' :: v) (a :: as)

theorem CommaList.forall_mem {α : Type} {L : Text → α → Prop} {P : α → Prop}
    (h : ∀ u a, L u a → P a) {u : Text} {as : List α} (hu : CommaList L u as) : ∀ a ∈ as, P a := by
  induction hu with
  | one ha => simpa using h _ _ ha
  | cons ha _ ih => simpa using And.intro (h _ _ ha) ih

theorem CommaList.mono {α : Type} {L L' : Text → α → Prop} (h : ∀ u a, L u a → L' u a)
    {u : Text} {as : List α} (hu : CommaList L u as) : CommaList L' u as := by
  induction hu with
  | one ha => exact .one (h _ _ ha)
  | cons ha _ ih => exact .cons (h _ _ ha) ih

/-- A word with a gap behind it. -/
def Spaced {α : Type} (L : Text → α → Prop) (s : Text) (a : α) : Prop :=
  ∃ u w, s = u ++ w ∧ L u a ∧ IsGap w

theorem Spaced.mono {α : Type} {L L' : Text → α → Prop} (h : ∀ u a, L u a → L' u a)
    {u : Text} {a : α} (hu : Spaced L u a) : Spaced L' u a := by
  obtain ⟨v, w, rfl, hv, hw⟩ := hu
  exact ⟨v, w, rfl, h _ _ hv, hw⟩

theorem comma_eq_done_iff {s rest : Text} {u : Unit} :
    comma s = .done u rest ↔ skipBlank s = ',' :: rest := by
  unfold comma
  simp only [Reader.bind_eq_done_iff, blank_eq_done_iff, Reader.char_eq_done_iff]
  constructor
  · intro h
    obtain ⟨_, mid, rfl, h⟩ := h
    exact h
  · intro h
    exact ⟨(), _, rfl, h⟩

theorem refuses_comma {s : Text} (h : (skipBlank s).head? ≠ some ',') : comma.Refuses s :=
  Reader.refuses_bind_of_done (a := ()) (blank_eq_done_iff.mpr rfl) (Reader.refuses_char h)

section

variable {α : Type} {L : Text → α → Prop} {p : Reader α}

theorem progress_comma (hp : p.Sound L) : Reader.Progress (do comma; p) := by
  intro s a rest h
  rw [Reader.bind_eq_done_iff] at h
  obtain ⟨_, mid, hcomma, h⟩ := h
  rw [comma_eq_done_iff] at hcomma
  obtain ⟨u, rfl, -⟩ := hp mid a rest h
  obtain ⟨w, hs, -⟩ := exists_gap_append_skipBlank s
  rw [hcomma] at hs
  rw [hs]
  simp only [List.length_append, List.length_cons]
  omega

/-- A list that is read, with the gap behind it, is a list of words with a gap behind each. -/
theorem commaList_sound (hp : p.Sound L) {s mid : Text} {as : List α}
    (h : Reader.separated comma p s = .done as mid) :
    ∃ u, s = u ++ skipBlank mid ∧ CommaList (Spaced L) u as := by
  rw [Reader.separated_eq_done_iff] at h
  obtain ⟨first, others, mid₁, rfl, hfirst, hothers⟩ := h
  induction others generalizing s first mid₁ with
  | nil =>
    rw [Reader.many_eq_done_nil_iff (progress_comma hp)] at hothers
    obtain ⟨rfl, -⟩ := hothers
    obtain ⟨u, rfl, hu⟩ := hp s first mid hfirst
    obtain ⟨w, hmid, hw⟩ := exists_gap_append_skipBlank mid
    refine ⟨u ++ w, ?_, .one ⟨u, w, rfl, hu, hw⟩⟩
    rw [List.append_assoc, ← hmid]
  | cons second others ih =>
    rw [Reader.many_eq_done_cons_iff (progress_comma hp)] at hothers
    obtain ⟨mid₂, hsecond, hothers⟩ := hothers
    rw [Reader.bind_eq_done_iff] at hsecond
    obtain ⟨_, mid₃, hcomma, hsecond⟩ := hsecond
    rw [comma_eq_done_iff] at hcomma
    obtain ⟨v, hv, hlist⟩ := ih second mid₂ hsecond hothers
    obtain ⟨u, rfl, hu⟩ := hp s first mid₁ hfirst
    obtain ⟨w, hmid₁, hw⟩ := exists_gap_append_skipBlank mid₁
    rw [hcomma, hv] at hmid₁
    refine ⟨(u ++ w) ++ ',' :: v, by simp [hmid₁], .cons ⟨u, w, rfl, hu, hw⟩ hlist⟩

/-- A list of words with a gap behind each is read up to the last gap. -/
theorem commaList_complete {ends stop : Text → Prop} (hp : p.Sound L) (hpc : p.Complete L ends)
    (hends : ∀ w t, IsGap w → stop t → ends (w ++ t)) (htight : ∀ t, stop t → Tight t)
    (hcomma : ∀ t, stop (',' :: t)) {u rest : Text} {as : List α}
    (h : CommaList (Spaced L) u as) (hrest : stop rest) (hhead : rest.head? ≠ some ',') :
    ∃ mid, Reader.separated comma p (u ++ rest) = .done as mid ∧ skipBlank mid = rest := by
  have hprogress := progress_comma hp
  induction h with
  | @one _ a hu =>
    obtain ⟨v, w, rfl, hv, hw⟩ := hu
    have hskip := skipBlank_append hw (htight rest hrest)
    refine ⟨w ++ rest, ?_, hskip⟩
    rw [Reader.separated_eq_done_iff]
    refine ⟨a, [], w ++ rest, rfl, ?_, ?_⟩
    · rw [List.append_assoc]
      exact hpc v a _ hv (hends w rest hw hrest)
    · rw [Reader.many_eq_done_nil_iff hprogress]
      exact ⟨rfl, Reader.Refuses.bind (refuses_comma (by rw [hskip]; exact hhead))⟩
  | @cons _ v a as hu _ ih =>
    obtain ⟨u, w, rfl, hu, hw⟩ := hu
    obtain ⟨mid, hmid, hskip⟩ := ih
    rw [Reader.separated_eq_done_iff] at hmid
    obtain ⟨first, others, mid₁, rfl, hfirst, hothers⟩ := hmid
    have htail : skipBlank (w ++ ',' :: (v ++ rest)) = ',' :: (v ++ rest) :=
      skipBlank_append hw (htight _ (hcomma _))
    refine ⟨mid, ?_, hskip⟩
    rw [Reader.separated_eq_done_iff]
    refine ⟨a, first :: others, w ++ ',' :: (v ++ rest), rfl, ?_, ?_⟩
    · have := hpc u a (w ++ ',' :: (v ++ rest)) hu (hends w _ hw (hcomma _))
      simpa using this
    · rw [Reader.many_eq_done_cons_iff hprogress]
      refine ⟨mid₁, ?_, hothers⟩
      rw [Reader.bind_eq_done_iff]
      exact ⟨(), v ++ rest, comma_eq_done_iff.mpr htail, hfirst⟩

end

/-! ## Names -/

/-- Name characters and escaped characters. -/
inductive NameChars : Text → Prop
  | nil : NameChars []
  | char {c : Char} {s : Text} : isNameChar c = true → NameChars s → NameChars (c :: s)
  | escape (c : Char) {s : Text} : NameChars s → NameChars ('\\' :: c :: s)

/-- A name as it is written. -/
def IsName (n : Text) : Prop := NameChars n ∧ n ≠ []

/-- No name goes on at the front of the text. -/
def EndsName (s : Text) : Prop := spanName s = ([], s)

theorem isNameChar_of_isBlank {c : Char} (h : isBlank c = true) : isNameChar c = false := by
  simp only [isBlank, Bool.or_eq_true, beq_iff_eq] at h
  rcases h with (((h | h) | h) | h) | h <;> subst h <;> decide

theorem isQuote_of_isNameChar {c : Char} (h : isNameChar c = true) : Text.isQuote c = false := by
  cases hq : Text.isQuote c with
  | false => rfl
  | true =>
    simp only [Text.isQuote, Bool.or_eq_true, beq_iff_eq] at hq
    rcases hq with hq | hq <;> subst hq <;> exact absurd h (by decide)

theorem ne_backslash_of_isNameChar {c : Char} (h : isNameChar c = true) : c ≠ '\\' := by
  intro hc
  rw [hc] at h
  exact absurd h (by decide)

theorem isPlainName_iff {s : Text} :
    isPlainName s = true ↔ s ≠ [] ∧ ∀ c ∈ s, isNameChar c = true := by
  simp [isPlainName]

theorem spanName_cons {c : Char} (hc : c ≠ '\\') (s : Text) :
    spanName (c :: s) =
      if isNameChar c then (c :: (spanName s).1, (spanName s).2) else ([], c :: s) := by
  rw [spanName]
  intro d rest h
  exact absurd h hc

theorem endsName_nil : EndsName [] := rfl

theorem endsName_cons {c : Char} (hn : isNameChar c = false) (hc : c ≠ '\\') (s : Text) :
    EndsName (c :: s) := by
  rw [EndsName, spanName_cons hc, if_neg (by simp [hn])]

/-- A name goes on behind the characters of a name. -/
theorem spanName_nameChars_append {n : Text} (hn : NameChars n) (s : Text) :
    spanName (n ++ s) = (n ++ (spanName s).1, (spanName s).2) := by
  induction hn with
  | nil => rfl
  | char hc _ ih =>
    rw [List.cons_append, spanName_cons (ne_backslash_of_isNameChar hc), if_pos hc, ih]
    rfl
  | escape c _ ih =>
    rw [List.cons_append, List.cons_append, spanName, ih]
    rfl

theorem spanName_append {n s : Text} (hn : NameChars n) (hs : EndsName s) :
    spanName (n ++ s) = (n, s) := by
  rw [spanName_nameChars_append hn, hs, List.append_nil]

theorem spanName_sound (s : Text) :
    s = (spanName s).1 ++ (spanName s).2 ∧ NameChars (spanName s).1 ∧ EndsName (spanName s).2 := by
  induction s using Text.escapeInduction with
  | nil => exact ⟨rfl, .nil, rfl⟩
  | lone => exact ⟨rfl, .nil, rfl⟩
  | escape c s ih =>
    obtain ⟨hs, hn, he⟩ := ih
    rw [spanName]
    exact ⟨by simp [← hs], .escape c hn, he⟩
  | char c s hc ih =>
    obtain ⟨hs, hn, he⟩ := ih
    rw [spanName_cons hc]
    cases hcn : isNameChar c with
    | true => exact ⟨by simp [← hs], .char hcn hn, he⟩
    | false => exact ⟨rfl, .nil, endsName_cons hcn hc s⟩

theorem name_eq_done_iff {s n rest : Text} :
    name s = .done n rest ↔ spanName s = (n, rest) ∧ n ≠ [] := by
  unfold name
  cases hs : spanName s with
  | mk m r =>
    cases m with
    | nil =>
      split
      all_goals simp_all
    | cons c m =>
      simp only [Reply.done.injEq, Prod.mk.injEq]
      constructor
      · rintro ⟨rfl, rfl⟩
        exact ⟨⟨rfl, rfl⟩, by simp⟩
      · intro h
        exact h.1

/-- A name is taken off a text as far as it goes. -/
theorem name_sound {s n rest : Text} (h : name s = .done n rest) :
    s = n ++ rest ∧ IsName n ∧ EndsName rest := by
  rw [name_eq_done_iff] at h
  have hs := spanName_sound s
  rw [h.1] at hs
  exact ⟨hs.1, ⟨hs.2.1, h.2⟩, hs.2.2⟩

theorem name_complete {n rest : Text} (hn : IsName n) (hr : EndsName rest) :
    name (n ++ rest) = .done n rest :=
  name_eq_done_iff.mpr ⟨spanName_append hn.1 hr, hn.2⟩

theorem refuses_name {s : Text} (h : EndsName s) : name.Refuses s := by
  unfold Reader.Refuses name
  rw [h]
  split
  · exact ⟨.soft, [], rfl, rfl⟩
  · exact ⟨.soft, _, rfl, rfl⟩
  · next n rest _ hne heq =>
    cases heq
    exact absurd rfl hne

/-- A name begins with a name character or a backslash. -/
theorem IsName.exists_cons {n : Text} (h : IsName n) :
    ∃ c m, n = c :: m ∧ (isNameChar c = true ∨ c = '\\') := by
  obtain ⟨hn, hne⟩ := h
  cases hn with
  | nil => exact absurd rfl hne
  | @char c s hc _ => exact ⟨c, s, rfl, .inl hc⟩
  | @escape c s _ => exact ⟨'\\', c :: s, rfl, .inr rfl⟩

theorem IsName.tight {n : Text} (h : IsName n) (t : Text) : Tight (n ++ t) := by
  obtain ⟨c, m, rfl, hc⟩ := h.exists_cons
  rw [List.cons_append]
  rcases hc with hc | rfl
  · refine tight_cons ?_ ?_ _
    · cases hb : isBlank c with
      | false => rfl
      | true => rw [isNameChar_of_isBlank hb] at hc; cases hc
    · intro h
      rw [h] at hc
      exact absurd hc (by decide)
  · exact tight_cons rfl (by decide) _

theorem endsName_append_of_ne_nil {w : Text} (hw : IsGap w) (hne : w ≠ []) (t : Text) :
    EndsName (w ++ t) := by
  cases w with
  | nil => exact absurd rfl hne
  | cons c w =>
    rcases hw.head with hc | rfl
    · refine endsName_cons (isNameChar_of_isBlank hc) ?_ _
      intro h
      rw [h] at hc
      exact absurd hc (by decide)
    · exact endsName_cons (by decide) (by decide) _

theorem EndsName.gap_append {w t : Text} (ht : EndsName t) (hw : IsGap w) : EndsName (w ++ t) := by
  cases w with
  | nil => exact ht
  | cons c w => exact endsName_append_of_ne_nil hw (by simp) t

theorem NameChars.endsEscaping {n : Text} (h : NameChars n) : Text.endsEscaping n = false := by
  induction h with
  | nil => rfl
  | char hc _ ih => rw [Text.endsEscaping_cons_of_ne (ne_backslash_of_isNameChar hc), ih]
  | escape c _ ih => rw [Text.endsEscaping_escape, ih]

/-! ## Quoted strings -/

/-- What may be written between two of the given quotes, and the content that it stands for. -/
inductive QuotedAs (quote : Char) : Text → Text → Prop
  | nil : QuotedAs quote [] []
  | escapedApostrophe {s content : Text} : QuotedAs quote s content →
      QuotedAs quote ('\\' :: '\'' :: s) ('\'' :: content)
  | escape {c : Char} {s content : Text} : c ≠ '\'' → QuotedAs quote s content →
      QuotedAs quote ('\\' :: c :: s) ('\\' :: c :: content)
  | doubleQuote {s content : Text} : quote ≠ '"' → QuotedAs quote s content →
      QuotedAs quote ('"' :: s) ('\\' :: '"' :: content)
  | char {c : Char} {s content : Text} : c ≠ quote → c ≠ '"' → c ≠ '\\' →
      QuotedAs quote s content → QuotedAs quote (c :: s) (c :: content)

/-- A string in quotes, and its content. -/
def IsString (s content : Text) : Prop :=
  ∃ quote body, Text.isQuote quote = true ∧ s = quote :: body ++ [quote] ∧
    QuotedAs quote body content

theorem quotedContent_cons {quote c : Char} (hc : c ≠ '\\') (s : Text) :
    quotedContent quote (c :: s) =
      if c = quote then .done [] s
      else (quotedContent quote s).map fun content =>
        if c = '"' then '\\' :: c :: content else c :: content := by
  rw [quotedContent]
  · intro h
    exact absurd h hc
  · intro d rest h
    exact absurd h hc

theorem quotedContent_sound {quote : Char} {s content rest : Text}
    (h : quotedContent quote s = .done content rest) :
    ∃ body, s = body ++ quote :: rest ∧ QuotedAs quote body content := by
  induction s using Text.escapeInduction generalizing content with
  | nil => simp [quotedContent] at h
  | lone => simp [quotedContent] at h
  | escape c s ih =>
    rw [quotedContent, Reader.map_reply_eq_done_iff] at h
    obtain ⟨content', hs, rfl⟩ := h
    obtain ⟨body, rfl, hbody⟩ := ih hs
    refine ⟨'\\' :: c :: body, rfl, ?_⟩
    by_cases hc : c = '\''
    · subst hc
      exact .escapedApostrophe hbody
    · rw [if_neg hc]
      exact .escape hc hbody
  | char c s hc ih =>
    rw [quotedContent_cons hc] at h
    by_cases hq : c = quote
    · rw [if_pos hq] at h
      cases h
      exact ⟨[], by rw [hq]; rfl, .nil⟩
    · rw [if_neg hq, Reader.map_reply_eq_done_iff] at h
      obtain ⟨content', hs, rfl⟩ := h
      obtain ⟨body, rfl, hbody⟩ := ih hs
      refine ⟨c :: body, rfl, ?_⟩
      by_cases hd : c = '"'
      · subst hd
        exact .doubleQuote (fun e => hq e.symm) hbody
      · rw [if_neg hd]
        exact .char hq hd hc hbody

theorem quotedContent_complete {quote : Char} (hquote : quote ≠ '\\') {body content : Text}
    (h : QuotedAs quote body content) (rest : Text) :
    quotedContent quote (body ++ quote :: rest) = .done content rest := by
  induction h with
  | nil => rw [List.nil_append, quotedContent_cons hquote, if_pos rfl]
  | escapedApostrophe _ ih =>
    rw [List.cons_append, List.cons_append, quotedContent, ih]
    rfl
  | escape hc _ ih =>
    rw [List.cons_append, List.cons_append, quotedContent, ih, Reply.map, if_neg hc]
  | doubleQuote hq _ ih =>
    rw [List.cons_append, quotedContent_cons (by decide), if_neg (fun e => hq e.symm), ih]
    rfl
  | char hq hd hc _ ih =>
    rw [List.cons_append, quotedContent_cons hc, if_neg hq, ih, Reply.map, if_neg hd]

theorem quoted_sound : quoted.Sound IsString := by
  intro s content rest h
  cases s with
  | nil => simp [quoted] at h
  | cons c s =>
    rw [quoted] at h
    by_cases hc : Text.isQuote c = true
    · rw [if_pos hc] at h
      obtain ⟨body, rfl, hbody⟩ := quotedContent_sound h
      exact ⟨c :: body ++ [c], by simp, c, body, hc, rfl, hbody⟩
    · rw [if_neg hc] at h
      cases h

theorem quoted_complete : quoted.Complete IsString (fun _ => True) := by
  intro s content rest h _
  obtain ⟨quote, body, hq, rfl, hbody⟩ := h
  have := quotedContent_complete (Text.ne_backslash_of_isQuote hq) hbody rest
  simpa [quoted, hq] using this

theorem refuses_quoted {c : Char} (hc : Text.isQuote c = false) (s : Text) :
    quoted.Refuses (c :: s) :=
  ⟨.soft, c :: s, by simp [quoted, hc], rfl⟩

/-! ## Groups -/

theorem group_eq_done_iff {s content rest : Text} :
    group s = .done content rest ↔ s = '(' :: content ++ ')' :: rest ∧ Text.Balanced content := by
  rw [← Text.group?_eq_some_iff]
  unfold group
  cases Text.group? s with
  | none => simp
  | some parts => simp [Prod.ext_iff]

end FilterList.Css.Token
