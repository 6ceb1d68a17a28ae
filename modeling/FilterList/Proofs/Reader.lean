import FilterList.Css.SyntaxError
set_option autoImplicit false

/-!
# When readers succeed

A reader is built from combinators, and each of them succeeds under a condition on its parts.
This file states those conditions, one equivalence for each combinator, so that a run of a
reader can be taken apart or put together without opening any definition.

A reader is then compared with a *language*: a relation between words and the values that they
stand for.  `Sound` says that whatever the reader takes off a text is a word for the value it
gives.  `Complete` says that it takes every word off a text, and no more than the word, provided
that what follows cannot be taken for a part of it.
-/

namespace FilterList.Css.Reader

variable {α β : Type}

/-- The reader fails on the text, and lets alternatives be tried. -/
def Refuses (p : Reader α) (s : Text) : Prop :=
  ∃ failure rest, p s = .failed failure rest ∧ failure.committed = false

/-! ## Success, combinator by combinator -/

theorem map_reply_eq_done_iff {f : α → β} {r : Reply α} {rest : Text} {b : β} :
    r.map f = .done b rest ↔ ∃ a, r = .done a rest ∧ f a = b := by
  cases r with
  | done a mid =>
    constructor
    · intro h
      cases h
      exact ⟨a, rfl, rfl⟩
    · rintro ⟨a', h, rfl⟩
      cases h
      rfl
  | failed failure mid => simp [Reply.map]

theorem pure_eq_done_iff {a b : α} {s rest : Text} :
    (pure a : Reader α) s = .done b rest ↔ a = b ∧ s = rest := by
  simp

/-- A sequence succeeds when its parts do, the second where the first stopped. -/
theorem bind_eq_done_iff {p : Reader α} {f : α → Reader β} {s rest : Text} {b : β} :
    (p >>= f) s = .done b rest ↔ ∃ a mid, p s = .done a mid ∧ f a mid = .done b rest := by
  rw [bind_apply]
  cases h : p s with
  | done a mid =>
    constructor
    · intro hf
      exact ⟨a, mid, rfl, hf⟩
    · rintro ⟨a', mid', he, hf⟩
      cases he
      exact hf
  | failed failure mid => simp

theorem map_eq_done_iff {f : α → β} {p : Reader α} {s rest : Text} {b : β} :
    (f <$> p) s = .done b rest ↔ ∃ a, p s = .done a rest ∧ f a = b := by
  rw [map_apply, map_reply_eq_done_iff]

theorem char_eq_done_iff {c : Char} {s rest : Text} {u : Unit} :
    char c s = .done u rest ↔ s = c :: rest := by
  cases s with
  | nil => simp [char]
  | cons d tail =>
    by_cases hd : d = c
    · simp [char, hd]
    · simp [char, hd]

theorem skip_eq_done_iff {advance : Text → Text} {s rest : Text} {u : Unit} :
    skip advance s = .done u rest ↔ advance s = rest := by
  simp [skip]

theorem lookingAt_eq_done_iff {c : Char} {s rest : Text} {b : Bool} :
    lookingAt c s = .done b rest ↔ Text.beginsWith c s = b ∧ s = rest := by
  simp [lookingAt]

theorem committed_eq_done_iff {p : Reader α} {s rest : Text} {a : α} :
    committed p s = .done a rest ↔ p s = .done a rest := by
  unfold committed
  cases p s <;> simp

theorem noting_eq_done_iff {note : Note} {p : Reader α} {s rest : Text} {a : α} :
    noting note p s = .done a rest ↔ p s = .done a rest := by
  unfold noting
  cases p s <;> simp

theorem expecting_eq_done_iff {what : Expectation} {p : Reader α} {s rest : Text} {a : α} :
    expecting what p s = .done a rest ↔ p s = .done a rest :=
  noting_eq_done_iff

/-- A failure that is not committed counts as a success with nothing taken. -/
theorem unless_committed_eq_done_iff {failure : Failure} {mid s rest : Text} {a b : α} :
    (if failure.committed then .failed failure mid else .done a s) = Reply.done b rest ↔
      failure.committed = false ∧ a = b ∧ s = rest := by
  cases failure.committed with
  | true => simp
  | false => simp

/-- An attempt gives a value when the reader does, and nothing when the reader refuses. -/
theorem attempt_eq_done_iff {p : Reader α} {s rest : Text} {o : Option α} :
    attempt p s = .done o rest ↔
      (∃ a, o = some a ∧ p s = .done a rest) ∨ (o = none ∧ rest = s ∧ Refuses p s) := by
  unfold attempt Refuses
  cases h : p s with
  | done a mid =>
    constructor
    · intro e
      cases e
      exact .inl ⟨a, rfl, rfl⟩
    · rintro (⟨b, rfl, e⟩ | ⟨_, _, failure, r, e, _⟩)
      · cases e
        rfl
      · cases e
  | failed failure mid =>
    rw [unless_committed_eq_done_iff]
    constructor
    · rintro ⟨hc, rfl, rfl⟩
      exact .inr ⟨rfl, rfl, failure, mid, rfl, hc⟩
    · rintro (⟨_, _, e⟩ | ⟨rfl, rfl, _, _, e, hc⟩)
      · cases e
      · cases e
        exact ⟨hc, rfl, rfl⟩

/-- A choice is made by the first reader that does not refuse. -/
theorem either_eq_done_iff {p q : Reader α} {s rest : Text} {a : α} :
    either p q s = .done a rest ↔
      p s = .done a rest ∨ (Refuses p s ∧ q s = .done a rest) := by
  unfold either Refuses
  cases h : p s with
  | done b mid => simp
  | failed failure mid =>
    cases hc : failure.committed with
    | true => simp [hc]
    | false => simp [hc]

theorem fail_ne_done {s rest : Text} {a : α} : (fail : Reader α) s ≠ .done a rest := by
  simp [fail]

/-! ## Refusal -/

theorem refuses_fail (s : Text) : Refuses (fail : Reader α) s := ⟨.soft, s, rfl, rfl⟩

theorem Refuses.ne_done {p : Reader α} {s rest : Text} {a : α} (h : Refuses p s) :
    p s ≠ .done a rest := by
  obtain ⟨failure, r, hp, -⟩ := h
  rw [hp]
  simp

theorem Refuses.bind {p : Reader α} {f : α → Reader β} {s : Text} (h : Refuses p s) :
    Refuses (p >>= f) s := by
  obtain ⟨failure, r, hp, hc⟩ := h
  exact ⟨failure, r, bind_of_failed hp, hc⟩

/-- A sequence whose first part succeeds refuses if its second part does. -/
theorem refuses_bind_of_done {p : Reader α} {f : α → Reader β} {s mid : Text} {a : α}
    (hp : p s = .done a mid) (hf : Refuses (f a) mid) : Refuses (p >>= f) s := by
  obtain ⟨failure, r, h, hc⟩ := hf
  exact ⟨failure, r, by rw [bind_of_done hp, h], hc⟩

theorem Refuses.map {f : α → β} {p : Reader α} {s : Text} (h : Refuses p s) :
    Refuses (f <$> p) s := by
  obtain ⟨failure, r, hp, hc⟩ := h
  exact ⟨failure, r, by rw [map_apply, hp]; rfl, hc⟩

theorem Refuses.either {p q : Reader α} {s : Text} (hp : Refuses p s) (hq : Refuses q s) :
    Refuses (either p q) s := by
  obtain ⟨failure, r, hp, hc⟩ := hp
  obtain ⟨failure', r', hq, hc'⟩ := hq
  exact ⟨failure', r', by simp [Reader.either, hp, hc, hq], hc'⟩

theorem refuses_char {c : Char} {s : Text} (h : s.head? ≠ some c) : Refuses (char c) s := by
  cases s with
  | nil => exact ⟨.soft, [], rfl, rfl⟩
  | cons d tail =>
    have hd : d ≠ c := by simpa using h
    exact ⟨.soft, d :: tail, by simp [char, hd], rfl⟩

/-! ## Repetition -/

/-- A repetition that gives nothing was refused at once. -/
theorem many_eq_done_nil_iff {p : Reader α} (hp : Progress p) {s rest : Text} :
    many p s = .done [] rest ↔ rest = s ∧ Refuses p s := by
  rw [many_apply hp]
  unfold Refuses
  cases h : p s with
  | done a mid => simp [map_reply_eq_done_iff]
  | failed failure mid =>
    rw [unless_committed_eq_done_iff]
    constructor
    · rintro ⟨hc, -, rfl⟩
      exact ⟨rfl, failure, mid, rfl, hc⟩
    · rintro ⟨rfl, _, _, e, hc⟩
      cases e
      exact ⟨hc, rfl, rfl⟩

/-- A repetition that gives something gave its first value, and went on from there. -/
theorem many_eq_done_cons_iff {p : Reader α} (hp : Progress p) {s rest : Text} {a : α}
    {as : List α} :
    many p s = .done (a :: as) rest ↔ ∃ mid, p s = .done a mid ∧ many p mid = .done as rest := by
  rw [many_apply hp]
  cases h : p s with
  | done b mid =>
    simp only [map_reply_eq_done_iff]
    constructor
    · rintro ⟨bs, hm, e⟩
      cases e
      exact ⟨mid, rfl, hm⟩
    · rintro ⟨mid', e, hm⟩
      cases e
      exact ⟨as, hm, rfl⟩
  | failed failure mid =>
    cases hc : failure.committed with
    | true => simp [hc]
    | false => simp [hc]

/-- A separated list is a first item, and then separators with an item behind each. -/
theorem separated_eq_done_iff {separator : Reader Unit} {p : Reader α} {s rest : Text}
    {list : List α} :
    separated separator p s = .done list rest ↔
      ∃ first others mid, list = first :: others ∧ p s = .done first mid ∧
        many (do separator; p) mid = .done others rest := by
  unfold separated
  simp only [bind_eq_done_iff, pure_eq_done_iff]
  constructor
  · rintro ⟨first, mid, hfirst, others, _, hothers, rfl, rfl⟩
    exact ⟨first, others, mid, rfl, hfirst, hothers⟩
  · rintro ⟨first, others, mid, rfl, hfirst, hothers⟩
    exact ⟨first, mid, hfirst, others, rest, hothers, rfl, rfl⟩

/-! ## Readers and languages -/

/-- What the reader takes off a text is a word of the language for the value that it gives. -/
def Sound (L : Text → α → Prop) (p : Reader α) : Prop :=
  ∀ s a rest, p s = .done a rest → ∃ u, s = u ++ rest ∧ L u a

/-- The reader takes every word of the language off a text, and gives its value, if what follows
the word is as `ends` says. -/
def Complete (L : Text → α → Prop) (ends : Text → Prop) (p : Reader α) : Prop :=
  ∀ u a rest, L u a → ends rest → p (u ++ rest) = .done a rest

/-- A sound reader of a language without the empty word makes progress. -/
theorem progress_of_sound {L : Text → α → Prop} {p : Reader α} (hp : Sound L p)
    (hne : ∀ u a, L u a → u ≠ []) : Progress p := by
  intro s a rest h
  obtain ⟨u, rfl, hu⟩ := hp s a rest h
  have := List.length_pos_iff.mpr (hne u a hu)
  simp only [List.length_append]
  omega

/-! ## Words in a row -/

/-- Words of a language one behind the other, and their values in order. -/
inductive Row (L : Text → α → Prop) : Text → List α → Prop
  | nil : Row L [] []
  | cons {u v : Text} {a : α} {as : List α} : L u a → Row L v as → Row L (u ++ v) (a :: as)

theorem Row.forall_mem {L : Text → α → Prop} {P : α → Prop} (h : ∀ u a, L u a → P a) {u : Text}
    {as : List α} (hu : Row L u as) : ∀ a ∈ as, P a := by
  induction hu with
  | nil => simp
  | cons ha _ ih => simpa using And.intro (h _ _ ha) ih

theorem Row.mono {L L' : Text → α → Prop} (h : ∀ u a, L u a → L' u a) {u : Text} {as : List α}
    (hu : Row L u as) : Row L' u as := by
  induction hu with
  | nil => exact .nil
  | cons ha _ ih => exact .cons (h _ _ ha) ih

theorem many_sound {L : Text → α → Prop} {p : Reader α} (hp : Sound L p)
    (hne : ∀ u a, L u a → u ≠ []) : Sound (Row L) (many p) := by
  have hprogress := progress_of_sound hp hne
  intro s as rest h
  induction as generalizing s with
  | nil =>
    rw [many_eq_done_nil_iff hprogress] at h
    obtain ⟨rfl, -⟩ := h
    exact ⟨[], rfl, .nil⟩
  | cons a as ih =>
    rw [many_eq_done_cons_iff hprogress] at h
    obtain ⟨mid, ha, has⟩ := h
    obtain ⟨u, rfl, hu⟩ := hp s a mid ha
    obtain ⟨v, rfl, hv⟩ := ih mid has
    exact ⟨u ++ v, by simp, .cons hu hv⟩

/-- A row is read whole if every word of it may stand behind the one before, and if the reader
refuses what stands behind the row. -/
theorem many_complete {L : Text → α → Prop} {ends stop : Text → Prop} {p : Reader α}
    (hprogress : Progress p) (hp : Complete L ends p) (hnext : ∀ u a t, L u a → ends (u ++ t))
    (hstop : ∀ t, stop t → ends t ∧ Refuses p t) : Complete (Row L) stop (many p) := by
  intro u as rest hu hrest
  induction hu with
  | nil => exact (many_eq_done_nil_iff hprogress).mpr ⟨rfl, (hstop rest hrest).2⟩
  | @cons u v a as ha hv ih =>
    have hends : ends (v ++ rest) := by
      cases hv with
      | nil => exact (hstop rest hrest).1
      | cons hb _ =>
        rw [List.append_assoc]
        exact hnext _ _ _ hb
    rw [List.append_assoc, many_eq_done_cons_iff hprogress]
    exact ⟨v ++ rest, hp u a (v ++ rest) ha hends, ih⟩

/-! ## Reading back what was written -/

/-- From its written form the value is read back exactly if it is as `ok` says, and then the reader
stops at the end of that form. -/
def ReadsBack (p : Reader α) (write : α → Text) (ok : α → Prop) (ends : Text → Prop)
    (a : α) : Prop :=
  ∀ t rest, ends t → (p (write a ++ t) = .done a rest ↔ ok a ∧ rest = t)

theorem many_cons_readsBack {p : Reader α} {write : α → Text} {ok : α → Prop}
    {ends : Text → Prop} (hprogress : Progress p) {a : α} {as : List α}
    (hfirst : ReadsBack p write ok ends a) {s t rest : Text} (hs : ends s)
    (hothers : many p s = .done as rest ↔ (∀ b ∈ as, ok b) ∧ rest = t) :
    many p (write a ++ s) = .done (a :: as) rest ↔ (∀ b ∈ a :: as, ok b) ∧ rest = t := by
  rw [many_eq_done_cons_iff hprogress]
  constructor
  · intro h
    obtain ⟨mid, ha, has⟩ := h
    obtain ⟨hok, rfl⟩ := (hfirst s mid hs).mp ha
    obtain ⟨hoks, hrest⟩ := hothers.mp has
    exact ⟨by simpa using And.intro hok hoks, hrest⟩
  · intro h
    obtain ⟨hok, hrest⟩ := h
    exact ⟨s, (hfirst s s hs).mpr ⟨hok a (by simp), rfl⟩,
      hothers.mpr ⟨fun b hb => hok b (by simp [hb]), hrest⟩⟩

/-- Values that are written one behind the other are read back exactly if each of them is. -/
theorem many_readsBack {p : Reader α} {write : α → Text} {ok : α → Prop} {ends : Text → Prop}
    (hprogress : Progress p) {as : List α} (hread : ∀ a ∈ as, ReadsBack p write ok ends a)
    (hnext : ∀ a ∈ as, ∀ t, ends (write a ++ t)) {t : Text} (ht : ends t)
    (hstop : Refuses p t) (rest : Text) :
    many p ((as.map write).flatten ++ t) = .done as rest ↔ (∀ a ∈ as, ok a) ∧ rest = t := by
  induction as with
  | nil =>
    rw [List.map_nil, List.flatten_nil, List.nil_append, many_eq_done_nil_iff hprogress]
    constructor
    · intro h
      exact ⟨by simp, h.1⟩
    · intro h
      exact ⟨h.2, hstop⟩
  | cons a as ih =>
    have hends : ends ((as.map write).flatten ++ t) := by
      cases as with
      | nil => exact ht
      | cons b bs =>
        rw [List.map_cons, List.flatten_cons, List.append_assoc]
        exact hnext b (by simp) _
    rw [List.map_cons, List.flatten_cons, List.append_assoc]
    exact many_cons_readsBack hprogress (hread a (by simp)) hends
      (ih (fun b hb => hread b (by simp [hb])) (fun b hb => hnext b (by simp [hb])))

theorem intercalate_singleton_cons (separator : Char) (first : Text) (others : List Text) :
    List.intercalate [separator] (first :: others) =
      first ++ (others.map (separator :: ·)).flatten := by
  induction others generalizing first with
  | nil => simp
  | cons second others ih =>
    rw [List.intercalate_cons_cons, ih]
    simp

end FilterList.Css.Reader
